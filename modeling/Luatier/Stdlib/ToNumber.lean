import Mathlib.Data.FinEnum
import Luatier.Runtime.NumberStrings
import Luatier.Stdlib.TableArithmetic

/-!
# `tonumber`

Without a base it is the conversion of the interpreter.  With one the string is scanned
by hand: white space, a sign, letters and digits, white space.
-/

namespace Luatier

open CLocale Numerals NumberStrings TableLib

variable {W : Type} (host : Host W)

namespace ToNumber

def digit (c : UInt8) : Nat :=
  if isdigit c then c.toNat - 48 else (toupper c).toNat - 65 + 10

/-- The loop over the digits; `none` is the return at a digit not below the base. -/
def scanDigits (base : Int64) (n : UInt64) : List UInt8 → Option (UInt64 × List UInt8)
  | [] => some (n, [])
  | c :: p =>
      if isalnum c then
        if base.toInt ≤ digit c then none
        else scanDigits base (n * base.toUInt64 + UInt64.ofNat (digit c)) p
      else some (n, c :: p)

def scan (base : Int64) (view : List UInt8) : Option Int64 :=
  let (sign, s) := readSign (view.dropWhile isspace)
  match s.head? with
  | none => none
  | some c =>
      if isalnum c then
        match scanDigits base 0 s with
        | none => none
        | some (n, p) =>
            if p.dropWhile isspace = [] then
              some (if sign = some .minus then 0 - n else n).toInt64
            else none
      else none

end ToNumber

open ToNumber

def baseTonumber (args : List TValue) : LibM W TValue := do
  if args.length < 1 then TableLib.panic "value expected"
  else if args.length < 2 ∨ args[1]? = some .nil then
    let v ← stackAt args 1
    if v.isNumber then return v
    return (← inState (host.tryToNumber · v)).getD .nil
  else
    let base ← checkInt host args 2
    if base.toInt < 2 ∨ 36 < base.toInt then
      TableLib.panic "bad argument #2 to 'tonumber' (base out of range)"
    match ← stackAt args 1 with
    | .string s =>
        let view ← inState (·.interned.view s)
        return ((scan base view).map .integer).getD .nil
    | _ => TableLib.panic "bad argument #1 to 'tonumber' (string expected)"

namespace ToNumber

/-! ## Positional notation -/

/-- White space, a sign and digits below the base, of which only the digits have to be
there; `m` is their value. -/
def Positional (base : Nat) (s : List UInt8) (m : Int) : Prop :=
  ∃ before sign digits after, s = before ++ (signText sign ++ digits) ++ after ∧
    AllSpace before ∧ AllSpace after ∧ digits ≠ [] ∧
    (∀ c ∈ digits, isalnum c = true ∧ digitValue c < base) ∧
    m = signed sign (ofDigits base digits)

theorem digit_eq : ∀ c, isalnum c = true → digit c = digitValue c :=
  forall_byte (by decide +kernel)

theorem isalnum_of_isspace {c : UInt8} (h : isspace c = true) : isalnum c = false := by
  by_contra halnum
  have hspace := isspace_of_isalnum c (by simpa using halnum)
  simp [h] at hspace

/-! ## The loop over the digits -/

section Digits

variable {base : Int64} {b : Nat} (hbase : base.toInt = b)

include hbase

theorem scanDigits_eq (s : List UInt8) (m : Nat) :
    scanDigits base (UInt64.ofNat m) s =
      if ∀ c ∈ s.takeWhile isalnum, digitValue c < b then
        some (UInt64.ofNat ((s.takeWhile isalnum).foldl (fun m c => m * b + digitValue c) m),
          s.dropWhile isalnum)
      else none := by
  induction s generalizing m with
  | nil => simp [scanDigits]
  | cons c s ih =>
      by_cases halnum : isalnum c = true
      · have hstep : UInt64.ofNat m * base.toUInt64 + UInt64.ofNat (digit c) =
            UInt64.ofNat (m * b + digitValue c) := by
          rw [toUInt64_of_toInt hbase, digit_eq c halnum]
          simp
        by_cases hdigit : digitValue c < b
        · have hbelow : ¬ base.toInt ≤ digit c := by
            rw [hbase, digit_eq c halnum]
            omega
          rw [scanDigits, if_pos halnum, if_neg hbelow, hstep, ih]
          simp [halnum, hdigit]
        · have habove : base.toInt ≤ digit c := by
            rw [hbase, digit_eq c halnum]
            omega
          rw [scanDigits, if_pos halnum, if_pos habove]
          simp [halnum, hdigit]
      · simp [scanDigits, halnum]

theorem scan_positional {s : List UInt8} {m : Int} (h : Positional b s m) :
    scan base s = some (Int64.ofInt m) := by
  obtain ⟨before, sign, digits, after, rfl, hbefore, hafter, hne, hdigits, rfl⟩ := h
  have halnum : ∀ c ∈ digits, isalnum c = true := fun c hc => (hdigits c hc).1
  obtain ⟨c, r, hcons⟩ := List.exists_cons_of_ne_nil hne
  have hc : isalnum c = true := halnum c (by simp [hcons])
  have hspace : (before ++ (signText sign ++ digits) ++ after).dropWhile isspace =
      signText sign ++ (digits ++ after) := by
    rw [List.append_assoc, List.append_assoc]
    refine (span_append hbefore fun d hd => ?_).2
    cases sign with
    | none =>
        simp [signText, hcons] at hd
        exact hd ▸ isspace_of_isalnum c hc
    | some sign => cases sign <;> simp [signText, Sign.byte] at hd <;> subst hd <;> rfl
  have hsign : readSign (signText sign ++ (digits ++ after)) = (sign, digits ++ after) := by
    refine readSign_text sign fun _ d hd => ?_
    simp [hcons] at hd
    subst hd
    constructor <;> rintro rfl <;> exact absurd hc (by decide)
  have hspan := span_append (r := after) halnum fun d hd =>
    isalnum_of_isspace (hafter d (List.mem_of_mem_head? hd))
  have hdigits' : ∀ d ∈ (digits ++ after).takeWhile isalnum, digitValue d < b := by
    rw [hspan.1]
    exact fun d hd => (hdigits d hd).2
  have hloop := scanDigits_eq hbase (digits ++ after) 0
  rw [if_pos hdigits', hspan.1, hspan.2] at hloop
  have hend : after.dropWhile isspace = [] := List.dropWhile_eq_nil_iff.mpr hafter
  simp only [scan, hspace, hsign]
  rw [hcons, List.cons_append, List.head?_cons]
  rw [hcons, List.cons_append] at hloop
  simp only [hc, if_true]
  rw [show (0 : UInt64) = UInt64.ofNat 0 from rfl, hloop]
  simp only [hend, if_true, signed]
  split
  · exact congrArg some (toInt64_neg _)
  · exact congrArg some (toInt64_ofNat _)

theorem positional_of_scan {s : List UInt8} {i : Int64} (h : scan base s = some i) :
    ∃ m, Positional b s m := by
  have htext := text_of_readSign (s.dropWhile isspace)
  have hspace := List.takeWhile_append_dropWhile (p := isspace) (l := s)
  simp only [scan] at h
  generalize readSign (s.dropWhile isspace) = signed at h htext
  obtain ⟨sign, t⟩ := signed
  cases t with
  | nil => simp at h
  | cons c t =>
      simp only [List.head?_cons, Option.ite_none_right_eq_some] at h
      obtain ⟨halnum, h⟩ := h
      have hloop := scanDigits_eq hbase (c :: t) 0
      rw [show UInt64.ofNat 0 = 0 from rfl] at hloop
      have hdigits : ∀ d ∈ (c :: t).takeWhile isalnum, digitValue d < b := by
        by_contra hdigits
        rw [hloop, if_neg hdigits] at h
        simp at h
      rw [hloop, if_pos hdigits] at h
      simp only [Option.ite_none_right_eq_some] at h
      have hafter : AllSpace ((c :: t).dropWhile isalnum) := List.dropWhile_eq_nil_iff.mp h.1
      refine ⟨_, s.takeWhile isspace, sign, (c :: t).takeWhile isalnum,
        (c :: t).dropWhile isalnum, ?_, ?_, hafter, ?_, ?_, rfl⟩
      · rw [List.append_assoc, List.append_assoc, List.takeWhile_append_dropWhile, htext, hspace]
      · exact fun d hd => List.mem_takeWhile_imp hd
      · simp [halnum]
      · exact fun d hd => ⟨List.mem_takeWhile_imp hd, hdigits d hd⟩

end Digits

/-! ## The function -/

/-- With a base, `tonumber` reads the positional notation in it and nothing else. -/
theorem tonumber_positional (s : Addr) (v : TValue) (rest : List TValue) (base : Int64)
    (p : Process W) (hv : v ≠ .nil)
    (hint : checkInt host (.string s :: v :: rest) 2 p = .ok base p)
    (hbase : 2 ≤ base.toInt ∧ base.toInt ≤ 36) :
    ∃ out, baseTonumber host (.string s :: v :: rest) p = .ok out p ∧
      (∀ m, Positional base.toInt.toNat (p.L.interned.view s) m →
        out = .integer (Int64.ofInt m)) ∧
      ((¬ ∃ m, Positional base.toInt.toNat (p.L.interned.view s) m) → out = .nil) := by
  have hb : base.toInt = base.toInt.toNat := by omega
  have hrange : ¬ (base.toInt < 2 ∨ 36 < base.toInt) := by omega
  refine ⟨((scan base (p.L.interned.view s)).map .integer).getD .nil, ?_, ?_, ?_⟩
  · have hshort : ¬ (TValue.string s :: v :: rest).length < 1 := by simp
    have hgiven : ¬ ((TValue.string s :: v :: rest).length < 2 ∨
        (TValue.string s :: v :: rest)[1]? = some .nil) := by
      simp [hv]
    rw [baseTonumber, if_neg hshort, if_neg hgiven]
    show EStateM.bind _ _ p = _
    rw [EStateM.bind, hint]
    simp only [if_neg hrange]
    rfl
  · intro m h
    rw [scan_positional hb h]
    rfl
  · intro h
    cases hscan : scan base (p.L.interned.view s) with
    | none => rfl
    | some i => exact absurd (positional_of_scan hb hscan) h

def spelledProcess : Process Unit where
  L := { heap := [(1, .string ⟨" -fF\n".toUTF8.toList, 0⟩)] }
  world := ()

theorem tonumber_positional_hex : baseTonumber (answering .nil) [.string 1, .integer 16]
    spelledProcess = .ok (.integer (-255)) spelledProcess := by
  obtain ⟨out, hrun, hvalue, -⟩ := tonumber_positional (answering .nil) 1 (.integer 16) [] 16
    spelledProcess (by simp) rfl (by decide)
  have hpositional :
      Positional (16 : Int64).toInt.toNat (spelledProcess.L.interned.view 1) (-255) :=
    ⟨[32], some .minus, [102, 70], [10], by decide +kernel, by simp [AllSpace]; decide,
      by simp [AllSpace]; decide, by simp, by simp; decide, by decide +kernel⟩
  rw [hrun, hvalue (-255) hpositional]
  rfl

end ToNumber

end Luatier
