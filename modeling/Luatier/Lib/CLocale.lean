import Mathlib.Data.List.Basic

/-!
# The character classes of the C locale

The tests of `ctype.h` on bytes: ASCII, and nothing from 128 on.
-/

namespace CLocale

def isdigit (c : UInt8) : Bool := 48 ≤ c && c ≤ 57

def isupper (c : UInt8) : Bool := 65 ≤ c && c ≤ 90

def islower (c : UInt8) : Bool := 97 ≤ c && c ≤ 122

def isalpha (c : UInt8) : Bool := isupper c || islower c

def isalnum (c : UInt8) : Bool := isalpha c || isdigit c

def isxdigit (c : UInt8) : Bool :=
  isdigit c || (65 ≤ c && c ≤ 70) || (97 ≤ c && c ≤ 102)

def isspace (c : UInt8) : Bool := (9 ≤ c && c ≤ 13) || c == 32

def iscntrl (c : UInt8) : Bool := c < 32 || c == 127

def isgraph (c : UInt8) : Bool := 32 < c && c < 127

def ispunct (c : UInt8) : Bool := isgraph c && !isalnum c

def tolower (c : UInt8) : UInt8 := if isupper c then c + 32 else c

def toupper (c : UInt8) : UInt8 := if islower c then c - 32 else c

theorem forall_byte {p : UInt8 → Prop} (h : ∀ n : Fin 256, p (UInt8.ofFin n)) (c : UInt8) : p c :=
  UInt8.ofFin_toFin c ▸ h c.toFin

theorem isxdigit_of_isdigit : ∀ c, isdigit c = true → isxdigit c = true := by
  intro c h
  simp [isxdigit, h]

theorem isalnum_of_isxdigit : ∀ c, isxdigit c = true → isalnum c = true := by
  intro c h
  simp [isxdigit, isalnum, isalpha, isupper, islower, isdigit, UInt8.le_iff_toNat_le] at h ⊢
  omega

theorem isspace_of_isalnum : ∀ c, isalnum c = true → isspace c = false := by
  intro c h
  simp [isspace, isalnum, isalpha, isupper, islower, isdigit, UInt8.le_iff_toNat_le,
    ← UInt8.toNat_inj] at h ⊢
  omega

theorem isalpha_of_isdigit : ∀ c, isdigit c = true → isalpha c = false := by
  intro c h
  simp [isalpha, isupper, islower, isdigit, UInt8.le_iff_toNat_le] at h ⊢
  omega

theorem tolower_of_isdigit : ∀ c, isdigit c = true → tolower c = c := by
  intro c h
  simp [tolower, isupper, isdigit, UInt8.le_iff_toNat_le] at h ⊢
  omega

theorem tolower_of_isspace : ∀ c, isspace c = true → tolower c = c := by
  intro c h
  simp [tolower, isupper, isspace, UInt8.le_iff_toNat_le, ← UInt8.toNat_inj] at h ⊢
  omega

end CLocale
