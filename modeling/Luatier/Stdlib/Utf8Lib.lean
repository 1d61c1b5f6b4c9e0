import Mathlib.Data.FinEnum
import Luatier.Frontend.Lexer
import Luatier.Lib.Utf8
import Luatier.Runtime.Value

/-!
# The UTF-8 library

Strings are bytes, and positions that a program passes have been checked to be
integers.  A position that is left out is `none`.
-/

namespace Luatier

open Utf8 Binary64

namespace Utf8Lib

def kMaxUnicode : UInt32 := 0x10FFFF

/-- `INT_MAX` -/
def intMax : Int := 2147483647

def iscont (c : UInt8) : Bool := c &&& 0xC0 == 0x80

def uPosrelat (pos : Int) (len : Nat) : Int :=
  if 0 ≤ pos then pos
  else if (len : Int) < -pos then 0
  else len + pos + 1

/-- The loop over the continuation bytes, with the shifted leading byte `c`. -/
def decodeLoop : List UInt8 → UInt32 → UInt32 → Nat → Option (UInt32 × UInt32 × Nat)
  | [], c, res, count => if c &&& 0x40 ≠ 0 then none else some (c, res, count)
  | cc :: s, c, res, count =>
      if c &&& 0x40 ≠ 0 then
        if cc &&& 0xC0 ≠ 0x80 then none
        else decodeLoop s (c <<< 1) ((res <<< 6) ||| (cc.toUInt32 &&& 0x3F)) (count + 1)
      else some (c, res, count)

def limits : List UInt32 := [0xFF, 0x7F, 0x7FF, 0xFFFF]

def utf8Decode (s : List UInt8) (i : Nat) : Option (UInt32 × Nat) :=
  match s.drop i with
  | [] => none
  | b :: s =>
      if b.toUInt32 < 0x80 then some (b.toUInt32, 1)
      else
        match decodeLoop s b.toUInt32 0 0 with
        | none => none
        | some (c, res, count) =>
            let res := res ||| ((c &&& 0x7F) <<< UInt32.ofNat (count * 5))
            if 3 < count ∨ kMaxUnicode < res ∨ res ≤ limits.getD count 0 then none
            else some (res, count + 1)

/-- `static_cast<char>` -/
def toChar (c : UInt32) : UInt8 := c.toUInt8

def contByte (bits : UInt32) : UInt8 := toChar (0x80 ||| (bits &&& 0x3F))

def utf8Encode (cp : UInt32) : List UInt8 :=
  if cp < 0x80 then [toChar cp]
  else if cp < 0x800 then [toChar ((0xC0 : UInt32) ||| (cp >>> 6)), contByte cp]
  else if cp < 0x10000 then
    [toChar ((0xE0 : UInt32) ||| (cp >>> 12)), contByte (cp >>> 6), contByte cp]
  else
    [toChar ((0xF0 : UInt32) ||| (cp >>> 18)), contByte (cp >>> 12), contByte (cp >>> 6),
      contByte cp]

theorem utf8Decode_pos {s : List UInt8} {i n : Nat} {cp : UInt32}
    (h : utf8Decode s i = some (cp, n)) : 0 < n := by
  simp only [utf8Decode] at h
  split at h
  · simp at h
  · split_ifs at h
    · obtain ⟨-, rfl⟩ := Prod.mk.inj (Option.some.inj h)
      exact Nat.one_pos
    · split at h
      · simp at h
      · split_ifs at h
        obtain ⟨-, rfl⟩ := Prod.mk.inj (Option.some.inj h)
        exact Nat.succ_pos _

/-! ## `utf8.len` -/

def lenLoop (s : List UInt8) (posj : Int) (posi : Nat) (n : Int32) : Int32 ⊕ Int :=
  if _h : (posi : Int) ≤ posj then
    match _hdecode : utf8Decode s posi with
    | none => .inr (posi + 1)
    | some (_, sz) => lenLoop s posj (posi + sz) (n + 1)
  else .inl n
  termination_by (posj + 1 - posi).toNat
  decreasing_by
    have := utf8Decode_pos _hdecode
    omega

def utf8Len (s : List UInt8) (i j : Option Int) : Except String (Int32 ⊕ Int) :=
  let posi := uPosrelat (i.getD 1) s.length
  let posj := uPosrelat (j.getD (-1)) s.length
  if ¬ (1 ≤ posi ∧ posi - 1 ≤ s.length) then .error "initial position out of string"
  else if ¬ posj - 1 < s.length then .error "final position out of string"
  else .ok (lenLoop s (posj - 1) (posi - 1).toNat 0)

/-! ## `utf8.char` -/

/-- The low bits of an argument are compared with the greatest code point. -/
def utf8Char : List Int64 → Except String (List UInt8)
  | [] => .ok []
  | code :: codes =>
      if code < 0 ∨ kMaxUnicode < code.toUInt64.toUInt32 then .error "value out of range"
      else (utf8Encode code.toUInt64.toUInt32 ++ ·) <$> utf8Char codes

/-! ## `utf8.codes` -/

def codesNext (s : List UInt8) (control : TValue) : Nat :=
  let n : Int :=
    match control with
    | .integer n => Datum.truncInt64 (.fin (roundInt n.toInt)) - 1
    | .number w => (decode w).truncInt64 - 1
    | _ => -1
  if n < 0 then 0
  else if n < s.length then skip iscont s (n.toNat + 1)
  else n.toNat

/-- The next position and its code point, from the position of the last one. -/
def utf8CodesIter (s : List UInt8) (control : TValue) : Except String (Option (Int64 × Int64)) :=
  let n := codesNext s control
  if s.length ≤ n then .ok none
  else
    match utf8Decode s n with
    | none => .error "invalid UTF-8 code"
    | some (code, _) => .ok (some (Int64.ofNat (n + 1), Int64.ofNat code.toNat))

/-- A generic loop over `utf8.codes` that runs for at most `fuel` rounds. -/
def codesLoop (s : List UInt8) : Nat → TValue → Except String (Option (List (Int64 × Int64)))
  | 0, _ => .ok none
  | fuel + 1, control =>
      match utf8CodesIter s control with
      | .error e => .error e
      | .ok none => .ok (some [])
      | .ok (some (pos, code)) =>
          match codesLoop s fuel (.integer pos) with
          | .error e => .error e
          | .ok rounds => .ok (rounds.map ((pos, code) :: ·))

/-- The rounds of `for p, c in utf8.codes(s)`. -/
def utf8Codes (s : List UInt8) (fuel : Nat) : Except String (Option (List (Int64 × Int64))) :=
  codesLoop s fuel (.integer 0)

/-! ## `utf8.codepoint` -/

def codepointLoop (s : List UInt8) (stop p : Nat) : Except String (List Int64) :=
  if _h : p < stop then
    match _hdecode : utf8Decode s p with
    | none => .error "invalid UTF-8 code"
    | some (code, sz) => (Int64.ofNat code.toNat :: ·) <$> codepointLoop s stop (p + sz)
  else .ok []
  termination_by stop - p
  decreasing_by
    have := utf8Decode_pos _hdecode
    omega

def utf8Codepoint (s : List UInt8) (i j : Option Int) : Except String (List Int64) :=
  let posi := uPosrelat (i.getD 1) s.length
  let pose := uPosrelat (j.getD posi) s.length
  if posi < 1 then .error "out of range"
  else if (s.length : Int) < pose then .error "out of range"
  else if pose < posi then .ok []
  else if intMax ≤ pose - posi then .error "string slice too long"
  else codepointLoop s pose.toNat (posi - 1).toNat

/-! ## `utf8.offset` -/

def forward (s : List UInt8) : Nat → Nat → Nat × Nat
  | 0, posi => (0, posi)
  | n + 1, posi =>
      if posi < s.length then forward s n (skip iscont s (posi + 1)) else (n + 1, posi)

def backward (s : List UInt8) : Nat → Nat → Nat × Nat
  | 0, posi => (0, posi)
  | n + 1, posi => if 0 < posi then backward s n (back iscont s posi) else (n + 1, posi)

def toStart (s : List UInt8) : Nat → Nat
  | 0 => 0
  | posi + 1 => if iscont (s.getD (posi + 1) 0) then toStart s posi else posi + 1

def utf8Offset (s : List UInt8) (n : Int) (i : Option Int) : Except String (Option Int) :=
  let posi := uPosrelat (i.getD (if 0 ≤ n then 1 else s.length + 1)) s.length
  if ¬ (1 ≤ posi ∧ posi - 1 ≤ s.length) then .error "position out of range"
  else
    let posi := (posi - 1).toNat
    if n = 0 then .ok (some (toStart s posi + 1))
    else if posi < s.length ∧ iscont (s.getD posi 0) = true then
      .error "initial position is a continuation byte"
    else
      let (left, posi) :=
        if n < 0 then backward s (-n).toNat posi else forward s (n - 1).toNat posi
      .ok (if left = 0 then some (posi + 1 : Int) else none)

/-! ## The encoders -/

theorem iscont_eq : iscont = isCont := by
  funext b
  exact CLocale.forall_byte (p := fun b => iscont b = isCont b) (by decide +kernel) b

theorem or_eq_add (a : Nat) {b i : Nat} (h : b < 2 ^ i) : (a * 2 ^ i) ||| b = a * 2 ^ i + b := by
  rw [← Nat.shiftLeft_eq, Nat.shiftLeft_add_eq_or_of_lt h]

theorem toChar_or {b x : UInt32} {a i n : Nat} (hb : b.toNat = n) (hn : n = a * 2 ^ i)
    (hx : x.toNat < 2 ^ i) : toChar (b ||| x) = UInt8.ofNat (n + x.toNat) := by
  apply UInt8.toNat_inj.mp
  rw [toChar, UInt32.toNat_toUInt8, UInt32.toNat_or, hb, hn, or_eq_add a hx,
    UInt8.toNat_ofNat']

theorem contByte_eq (x : UInt32) : contByte x = cont x.toNat := by
  have hlow : (x &&& 0x3F).toNat = x.toNat % 64 := by
    rw [UInt32.toNat_and]
    exact Nat.and_two_pow_sub_one_eq_mod x.toNat 6
  rw [contByte, toChar_or (n := 128) (a := 2) (i := 6) rfl rfl (by rw [hlow]; omega), hlow]
  rfl

theorem toNat_shiftRight (x : UInt32) {k : UInt32} {n : Nat} (hk : k.toNat = n) (hn : n < 32) :
    (x >>> k).toNat = x.toNat / 2 ^ n := by
  rw [UInt32.toNat_shiftRight, hk, Nat.mod_eq_of_lt hn, Nat.shiftRight_eq_div_pow]

theorem utf8Encode_eq {cp : UInt32} (hcp : cp.toNat ≤ maxCodePoint) :
    utf8Encode cp = encode cp.toNat := by
  have hmax : cp.toNat ≤ 0x10FFFF := hcp
  have h6 : (cp >>> 6).toNat = cp.toNat / 64 := toNat_shiftRight cp (n := 6) rfl (by decide)
  have h12 : (cp >>> 12).toNat = cp.toNat / 4096 :=
    toNat_shiftRight cp (n := 12) rfl (by decide)
  have h18 : (cp >>> 18).toNat = cp.toNat / 262144 :=
    toNat_shiftRight cp (n := 18) rfl (by decide)
  have hlt (n : UInt32) : cp < n ↔ cp.toNat < n.toNat := UInt32.lt_iff_toNat_lt
  simp only [utf8Encode, encode, hlt, contByte_eq, h6, h12]
  change (if cp.toNat < 0x80 then _ else if cp.toNat < 0x800 then _
    else if cp.toNat < 0x10000 then _ else _) = _
  split_ifs with h1 h2 h3
  · rfl
  · rw [toChar_or (n := 192) (a := 3) (i := 6) rfl rfl (by rw [h6]; omega), h6]
  · rw [toChar_or (n := 224) (a := 7) (i := 5) rfl rfl (by rw [h12]; omega), h12]
  · rw [toChar_or (n := 240) (a := 15) (i := 4) rfl rfl (by rw [h18]; omega), h18]

theorem continuation_eq (cp : Nat) {shift n : Nat} (h : 2 ^ shift = n) :
    Lexer.continuation cp shift = cont (cp / n) := by
  rw [Lexer.continuation, cont, Nat.shiftRight_eq_div_pow, h,
    Nat.and_two_pow_sub_one_eq_mod _ 6]
  exact congrArg UInt8.ofNat (or_eq_add 2 (i := 6) (Nat.mod_lt _ (by decide)))

theorem utf8Bytes_eq {cp : Nat} (hcp : cp ≤ maxCodePoint) : Lexer.utf8Bytes cp = encode cp := by
  have hmax : cp ≤ 0x10FFFF := hcp
  have hlead (b a i m shift n mask : Nat) (hb : b = a * 2 ^ i) (hn : 2 ^ shift = n)
      (hmask : mask = 2 ^ m - 1) (hbits : cp / n < 2 ^ m) (hmi : m ≤ i) :
      b ||| ((cp >>> shift) &&& mask) = b + cp / n := by
    rw [hb, hmask, Nat.shiftRight_eq_div_pow, hn, Nat.and_two_pow_sub_one_eq_mod,
      Nat.mod_eq_of_lt hbits]
    exact or_eq_add a (hbits.trans_le (Nat.pow_le_pow_right (by decide) hmi))
  simp only [Lexer.utf8Bytes, encode, continuation_eq cp (show 2 ^ 0 = 1 by decide),
    continuation_eq cp (show 2 ^ 6 = 64 by decide),
    continuation_eq cp (show 2 ^ 12 = 4096 by decide), Nat.div_one]
  split_ifs <;> try omega
  · rfl
  · rw [hlead 192 3 6 5 6 64 31 rfl rfl rfl (by omega) (by decide)]
  · rw [hlead 224 7 5 4 12 4096 15 rfl rfl rfl (by omega) (by decide)]
  · rw [hlead 240 15 4 3 18 262144 7 rfl rfl rfl (by omega) (by decide)]

/-! ## The decoder -/

/-- The leading byte after `n` shifts, if it asks for `n` continuation bytes. -/
def leadShift : Nat → UInt32 → Option UInt32
  | 0, c => if c &&& 0x40 ≠ 0 then none else some c
  | n + 1, c => if c &&& 0x40 ≠ 0 then leadShift n (c <<< 1) else none

def asksFor : Nat → UInt32 → Bool
  | 0, _ => true
  | n + 1, c => c &&& 0x40 ≠ 0 && asksFor n (c <<< 1)

theorem isCont_iff (b : UInt8) : b &&& 0xC0 ≠ 0x80 ↔ ¬ isCont b = true := by
  rw [← iscont_eq, iscont, beq_iff_eq]

theorem toNat_addBits {res : UInt32} {b : UInt8} (h : res.toNat * 64 + 64 ≤ 2 ^ 32) :
    ((res <<< 6) ||| (b.toUInt32 &&& 0x3F)).toNat = res.toNat * 64 + b.toNat % 64 := by
  have hshift : (res <<< 6).toNat = res.toNat * 2 ^ 6 := by
    rw [UInt32.toNat_shiftLeft]
    change res.toNat <<< 6 % 2 ^ 32 = res.toNat * 2 ^ 6
    rw [Nat.shiftLeft_eq, Nat.mod_eq_of_lt (by omega)]
  have hlow : (b.toUInt32 &&& 0x3F).toNat = b.toNat % 64 := by
    rw [UInt32.toNat_and]
    exact Nat.and_two_pow_sub_one_eq_mod b.toNat 6
  rw [UInt32.toNat_or, hshift, hlow]
  exact or_eq_add (i := 6) res.toNat (Nat.mod_lt _ (by decide))

theorem decodeLoop_eq {n : Nat} : ∀ {s : List UInt8} {c c' res : UInt32} {count : Nat},
    leadShift n c = some c' → (res.toNat + 1) * 64 ^ n ≤ 2 ^ 32 →
    decodeLoop s c res count =
      (readConts n res.toNat s).map fun r => (c', UInt32.ofNat r.1, count + n) := by
  induction n with
  | zero =>
      intro s c c' res count hlead _
      simp only [leadShift, Option.ite_none_left_eq_some, Option.some.injEq] at hlead
      obtain ⟨hbit, rfl⟩ := hlead
      cases s <;> simp only [decodeLoop, if_neg hbit, readConts, Option.map_some,
        UInt32.ofNat_toNat, Nat.add_zero]
  | succ n ih =>
      intro s c c' res count hlead hres
      simp only [leadShift, Option.ite_none_right_eq_some] at hlead
      obtain ⟨hbit, hlead⟩ := hlead
      cases s with
      | nil => simp only [decodeLoop, if_pos hbit, readConts, Option.map_none]
      | cons b s =>
          rw [pow_succ, Nat.mul_comm (64 ^ n), ← Nat.mul_assoc] at hres
          have hpow : 1 ≤ 64 ^ n := Nat.one_le_pow _ _ (by decide)
          have hfits : (res.toNat + 1) * 64 ≤ 2 ^ 32 :=
            (Nat.le_mul_of_pos_right _ hpow).trans hres
          have hbits : ((res <<< 6) ||| (b.toUInt32 &&& 0x3F)).toNat =
              res.toNat * 64 + b.toNat % 64 := toNat_addBits (by omega)
          simp only [decodeLoop, if_pos hbit, isCont_iff, readConts]
          by_cases hcont : isCont b = true
          · rw [if_neg (not_not.mpr hcont), if_pos hcont, ih hlead, hbits,
              Nat.add_right_comm count 1 n, Nat.add_assoc count n 1]
            refine le_trans (Nat.mul_le_mul_right _ ?_) hres
            rw [hbits]
            omega
          · rw [if_pos hcont, if_neg hcont, Option.map_none]

theorem count_of_asksFor {n : Nat} : ∀ {s : List UInt8} {c res : UInt32} {count : Nat}
    {r : UInt32 × UInt32 × Nat}, asksFor n c = true → decodeLoop s c res count = some r →
    count + n ≤ r.2.2 := by
  induction n with
  | zero =>
      intro s
      induction s with
      | nil =>
          intro c res count r _ h
          simp only [decodeLoop, Option.ite_none_left_eq_some] at h
          obtain rfl := Option.some.inj h.2
          exact le_rfl
      | cons b s ih =>
          intro c res count r _ h
          simp only [decodeLoop] at h
          split_ifs at h
          · exact (Nat.le_succ _).trans (ih rfl h)
          · obtain rfl := Option.some.inj h
            exact le_rfl
  | succ n ih =>
      intro s c res count r hasks h
      simp only [asksFor, Bool.and_eq_true, decide_eq_true_eq] at hasks
      cases s with
      | nil => simp [decodeLoop, hasks.1] at h
      | cons b s =>
          simp only [decodeLoop, if_pos hasks.1] at h
          split_ifs at h
          have := ih hasks.2 h
          omega

/-- A leading byte that asks for `n` continuation bytes, and what it adds to them. -/
theorem utf8Decode_lead {s t : List UInt8} {b : UInt8} {i n lead : Nat}
    (hdrop : s.drop i = b :: t) (hb : 128 ≤ b.toNat) (hn : n ≤ 3)
    (hlead : (leadShift n b.toUInt32).map
      (fun c => ((c &&& 0x7F) <<< UInt32.ofNat (n * 5)).toNat) = some (lead * 2 ^ (6 * n)))
    (hfits : (lead + 1) * 64 ^ n ≤ 2 ^ 32) :
    utf8Decode s i =
      ((readConts n lead t).filter fun r =>
        (limits.getD n 0).toNat < r.1 && r.1 ≤ maxCodePoint).map fun r =>
          (UInt32.ofNat r.1, n + 1) := by
  obtain ⟨c, hshift, hc⟩ := Option.map_eq_some_iff.mp hlead
  have hbig : ¬ b.toUInt32 < 0x80 := by
    rw [UInt32.lt_iff_toNat_lt, UInt8.toNat_toUInt32]
    exact not_lt.mpr hb
  have hpow : (64 : Nat) ^ n = 2 ^ (6 * n) := by
    rw [pow_mul]
    rfl
  have hzero : ((0 : UInt32).toNat + 1) * 64 ^ n ≤ 2 ^ 32 :=
    le_trans (Nat.mul_le_mul_right _ (Nat.succ_le_succ (Nat.zero_le _))) hfits
  simp only [utf8Decode, hdrop, if_neg hbig, decodeLoop_eq hshift hzero, Nat.zero_add,
    UInt32.toNat_zero]
  rw [readConts_eq n lead]
  rcases hread : readConts n 0 t with _ | ⟨v, rest⟩
  · rfl
  · have hv := readConts_lt hread
    rw [Nat.add_mul, Nat.one_mul] at hfits
    have hval : (UInt32.ofNat v).toNat = v := by
      rw [UInt32.toNat_ofNat']
      exact Nat.mod_eq_of_lt (by omega)
    have hor : UInt32.ofNat v ||| ((c &&& 0x7F) <<< UInt32.ofNat (n * 5)) =
        UInt32.ofNat (lead * 64 ^ n + v) := by
      apply UInt32.toNat_inj.mp
      rw [UInt32.toNat_or, hc, hval, Nat.or_comm, or_eq_add lead (hpow ▸ hv), ← hpow,
        UInt32.toNat_ofNat']
      exact (Nat.mod_eq_of_lt (by omega)).symm
    have hsum : (UInt32.ofNat (lead * 64 ^ n + v)).toNat = lead * 64 ^ n + v := by
      rw [UInt32.toNat_ofNat']
      exact Nat.mod_eq_of_lt (by omega)
    simp only [Option.map_some, hor, Option.filter_some, UInt32.lt_iff_toNat_lt,
      UInt32.le_iff_toNat_le, hsum, not_lt.mpr hn, false_or]
    have hmax : kMaxUnicode.toNat = maxCodePoint := rfl
    rw [hmax]
    by_cases hout : maxCodePoint < lead * 64 ^ n + v ∨
        lead * 64 ^ n + v ≤ (limits.getD n 0).toNat
    · rw [if_pos hout, if_neg (by simp only [Bool.and_eq_true, decide_eq_true_eq]; omega)]
      rfl
    · rw [if_neg hout, if_pos (by simp only [Bool.and_eq_true, decide_eq_true_eq]; omega)]
      rfl

theorem lead_byte (n : Nat) (hn : n ∈ [0, 1, 2, 3]) (b : UInt8) :
    256 - 2 ^ (7 - n) ≤ b.toNat ∧ b.toNat < 256 - 2 ^ (6 - n) →
    (leadShift n b.toUInt32).map
      (fun c => ((c &&& 0x7F) <<< UInt32.ofNat (n * 5)).toNat) =
        some (b.toNat % 2 ^ (6 - n) * 2 ^ (6 * n)) := by
  revert n
  exact CLocale.forall_byte (p := fun b => ∀ n ∈ [0, 1, 2, 3],
    256 - 2 ^ (7 - n) ≤ b.toNat ∧ b.toNat < 256 - 2 ^ (6 - n) →
    (leadShift n b.toUInt32).map
      (fun c => ((c &&& 0x7F) <<< UInt32.ofNat (n * 5)).toNat) =
        some (b.toNat % 2 ^ (6 - n) * 2 ^ (6 * n))) (by decide +kernel) b

theorem asksFor_four (b : UInt8) : 248 ≤ b.toNat → asksFor 4 b.toUInt32 = true :=
  CLocale.forall_byte (p := fun b => 248 ≤ b.toNat → asksFor 4 b.toUInt32 = true)
    (by decide +kernel) b

theorem utf8Decode_asksFor {s t : List UInt8} {b : UInt8} {i : Nat} (hdrop : s.drop i = b :: t)
    (hb : 248 ≤ b.toNat) : utf8Decode s i = none := by
  have hbig : ¬ b.toUInt32 < 0x80 := by
    rw [UInt32.lt_iff_toNat_lt, UInt8.toNat_toUInt32]
    exact not_lt.mpr (Nat.le_trans (by decide) hb)
  simp only [utf8Decode, hdrop, if_neg hbig]
  cases hread : decodeLoop t b.toUInt32 0 0 with
  | none => rfl
  | some r =>
      obtain ⟨c, res, count⟩ := r
      have hcount : 0 + 4 ≤ count := count_of_asksFor (asksFor_four b hb) hread
      exact if_pos (.inl (by omega))

theorem length_encode (cp : Nat) :
    (encode cp).length =
      if cp < 0x80 then 1 else if cp < 0x800 then 2 else if cp < 0x10000 then 3 else 4 := by
  simp only [encode]
  split_ifs <;> rfl

theorem readConts_range {n lead v : Nat} {t rest : List UInt8}
    (h : readConts n lead t = some (v, rest)) : v < (lead + 1) * 64 ^ n := by
  rw [readConts_eq] at h
  obtain ⟨⟨v', rest'⟩, hread, heq⟩ := Option.map_eq_some_iff.mp h
  obtain ⟨rfl, -⟩ := Prod.mk.inj heq
  rw [Nat.add_mul, Nat.one_mul]
  exact Nat.add_lt_add_left (readConts_lt hread) _

theorem filter_map_congr {α β : Type} {x : Option α} {p q : α → Bool} {f g : α → β}
    (h : ∀ r, x = some r → (p r = true ↔ q r = true) ∧ (q r = true → f r = g r)) :
    (x.filter p).map f = (x.filter q).map g := by
  cases x with
  | none => rfl
  | some r =>
      obtain ⟨hpq, hfg⟩ := h r rfl
      rw [Option.filter_some, Option.filter_some, Bool.eq_iff_iff.mpr hpq]
      split
      · exact congrArg some (hfg ‹_›)
      · rfl

theorem utf8Decode_eq (s : List UInt8) (i : Nat) :
    utf8Decode s i =
      (Utf8.decode (s.drop i)).map fun r => (UInt32.ofNat r.1, (encode r.1).length) := by
  cases hdrop : s.drop i with
  | nil => simp only [utf8Decode, hdrop, Utf8.decode, Option.map_none]
  | cons b t =>
      simp only [Utf8.decode]
      split_ifs with h1 h2 h3 h4 h5
      · have hsmall : b.toUInt32 < 0x80 := by
          rw [UInt32.lt_iff_toNat_lt, UInt8.toNat_toUInt32]
          exact h1
        simp only [utf8Decode, hdrop, if_pos hsmall, Option.map_some, length_encode, if_pos h1]
        exact congrArg (fun c => some (c, 1)) (UInt32.toNat_inj.mp (by simp))
      · rw [utf8Decode_lead (n := 0) hdrop (by omega) (by decide)
          (lead_byte 0 (by decide) b (by omega)) (by omega)]
        have hlow : ¬ (limits.getD 0 0).toNat < b.toNat % 2 ^ 6 := by
          have hlimit : (limits.getD 0 0).toNat = 255 := rfl
          omega
        rw [readConts, Option.filter_some, decide_eq_false hlow, Bool.false_and]
        rfl
      · rw [utf8Decode_lead (n := 1) hdrop (by omega) (by decide)
          (lead_byte 1 (by decide) b (by omega)) (by omega)]
        apply filter_map_congr
        rintro ⟨v, rest⟩ hread
        have hrange := readConts_range hread
        have hlow : (limits.getD 1 0).toNat = 0x7F := rfl
        have hmax : maxCodePoint = 0x10FFFF := rfl
        rw [hlow, hmax]
        refine ⟨by simp only [Bool.and_eq_true, decide_eq_true_eq]; omega, ?_⟩
        simp only [decide_eq_true_eq]
        intro hv
        rw [length_encode, if_neg (by omega), if_pos (by omega)]
      · rw [utf8Decode_lead (n := 2) hdrop (by omega) (by decide)
          (lead_byte 2 (by decide) b (by omega)) (by omega)]
        apply filter_map_congr
        rintro ⟨v, rest⟩ hread
        have hrange := readConts_range hread
        have hlow : (limits.getD 2 0).toNat = 0x7FF := rfl
        have hmax : maxCodePoint = 0x10FFFF := rfl
        rw [hlow, hmax]
        refine ⟨by simp only [Bool.and_eq_true, decide_eq_true_eq]; omega, ?_⟩
        simp only [decide_eq_true_eq]
        intro hv
        rw [length_encode, if_neg (by omega), if_neg (by omega), if_pos (by omega)]
      · rw [utf8Decode_lead (n := 3) hdrop (by omega) (by decide)
          (lead_byte 3 (by decide) b (by omega)) (by omega)]
        apply filter_map_congr
        rintro ⟨v, rest⟩ hread
        have hlow : (limits.getD 3 0).toNat = 0xFFFF := rfl
        rw [hlow]
        refine ⟨by simp only [Bool.and_eq_true, decide_eq_true_eq]; omega, ?_⟩
        simp only [Bool.and_eq_true, decide_eq_true_eq]
        intro hv
        rw [length_encode, if_neg (by omega), if_neg (by omega), if_neg (by omega)]
      · rw [utf8Decode_asksFor hdrop (by omega), Option.map_none]

theorem utf8Decode_eq_some_iff {s : List UInt8} {i n : Nat} {cp : UInt32} :
    utf8Decode s i = some (cp, n) ↔
      cp ≤ kMaxUnicode ∧ n = (utf8Encode cp).length ∧ ∃ rest, s.drop i = utf8Encode cp ++ rest := by
  have hmax : cp ≤ kMaxUnicode ↔ cp.toNat ≤ maxCodePoint := UInt32.le_iff_toNat_le
  rw [utf8Decode_eq, hmax]
  constructor
  · intro h
    obtain ⟨⟨v, rest⟩, hdecode, heq⟩ := Option.map_eq_some_iff.mp h
    obtain ⟨rfl, rfl⟩ := Prod.mk.inj heq
    obtain ⟨hv, hdrop⟩ := encode_of_decode hdecode
    have hbound : v ≤ 0x10FFFF := hv
    have hval : (UInt32.ofNat v).toNat = v := by
      rw [UInt32.toNat_ofNat']
      omega
    rw [← hval] at hv
    rw [utf8Encode_eq hv, hval]
    exact ⟨hval ▸ hv, rfl, rest, hdrop⟩
  · rintro ⟨hcp, rfl, rest, hdrop⟩
    rw [utf8Encode_eq hcp] at hdrop ⊢
    rw [hdrop, decode_encode hcp, Option.map_some, UInt32.ofNat_toNat]

end Utf8Lib

end Luatier
