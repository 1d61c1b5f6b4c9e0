import Luatier.Stdlib.Utf8Lib

/-!
# Characters and back

The text that `utf8.char` makes of code points is walked through character by
character, and every function of the library stops where the characters start.
-/

namespace Luatier

open Utf8 Binary64

namespace Utf8Lib

/-! ## Through a text -/

theorem codesNext_integer {s : List UInt8} {p : Nat} (hp : p < s.length)
    (hlen : s.length < 2 ^ 53) :
    codesNext s (.integer (Int64.ofNat (p + 1))) = skip iscont s (p + 1) := by
  have hint : (Int64.ofNat (p + 1)).toInt = ((p + 1 : Nat) : Int) :=
    Int64.toInt_ofNat_of_lt (by omega)
  have htrunc : Datum.truncInt64 (.fin (roundInt ((p + 1 : Nat) : Int))) =
      ((p + 1 : Nat) : Int) := by
    rw [roundInt_of_small (by omega) (by omega)]
    exact Datum.truncInt64_intCast (by omega) (by omega)
  simp only [codesNext, hint, htrunc]
  rw [if_neg (by omega), if_pos (by omega)]
  congr 1
  omega

section Texts

variable {cps : List Nat} (hcps : ∀ cp ∈ cps, cp ≤ maxCodePoint)

include hcps

theorem utf8Decode_start {m : Nat} (hm : m < cps.length) :
    utf8Decode (encodeAll cps) (start cps m) =
      some (UInt32.ofNat cps[m], (encode cps[m]).length) := by
  rw [utf8Decode_eq, drop_start hm, decode_encode (hcps _ (List.getElem_mem hm)),
    Option.map_some]

theorem lenLoop_start (k : Nat) : ∀ {m : Nat} (n : Int32), m + k = cps.length →
    lenLoop (encodeAll cps) ((encodeAll cps).length - 1) (start cps m) n =
      .inl (n + Int32.ofNat k) := by
  induction k with
  | zero =>
      intro m n hm
      have hend : ¬ ((start cps m : Nat) : Int) ≤ (encodeAll cps).length - 1 := by
        rw [← start_length cps, ← hm, Nat.add_zero]
        omega
      rw [lenLoop, dif_neg hend]
      simp
  | succ k ih =>
      intro m n hm
      have hlt : m < cps.length := by omega
      have hin : ((start cps m : Nat) : Int) ≤ (encodeAll cps).length - 1 := by
        have := start_lt hcps hlt
        omega
      rw [lenLoop, dif_pos hin]
      split
      · rename_i hdecode
        rw [utf8Decode_start hcps hlt] at hdecode
        cases hdecode
      · rename_i sz hdecode
        rw [utf8Decode_start hcps hlt] at hdecode
        obtain ⟨-, rfl⟩ := Prod.mk.inj (Option.some.inj hdecode)
        rw [← start_succ hlt, ih (n + 1) (by omega), Int32.ofNat_add]
        congr 1
        ac_rfl

theorem codepointLoop_start (k : Nat) : ∀ {m : Nat}, m + k = cps.length →
    codepointLoop (encodeAll cps) (encodeAll cps).length (start cps m) =
      .ok ((cps.drop m).map Int64.ofNat) := by
  induction k with
  | zero =>
      intro m hm
      have hend : start cps m = (encodeAll cps).length := by
        rw [← start_length cps, ← hm, Nat.add_zero]
      rw [codepointLoop, dif_neg (by omega), List.drop_of_length_le (by omega)]
      rfl
  | succ k ih =>
      intro m hm
      have hlt : m < cps.length := by omega
      have hsmall : (UInt32.ofNat cps[m]).toNat = cps[m] := by
        have : cps[m] ≤ 0x10FFFF := hcps _ (List.getElem_mem hlt)
        rw [UInt32.toNat_ofNat']
        omega
      rw [codepointLoop, dif_pos (start_lt hcps hlt)]
      split
      · rename_i hdecode
        rw [utf8Decode_start hcps hlt] at hdecode
        cases hdecode
      · rename_i code sz hdecode
        rw [utf8Decode_start hcps hlt] at hdecode
        obtain ⟨rfl, rfl⟩ := Prod.mk.inj (Option.some.inj hdecode)
        rw [← start_succ hlt, ih (by omega), List.drop_eq_getElem_cons hlt, hsmall]
        rfl

theorem forward_start (k : Nat) : ∀ {m : Nat}, m + k ≤ cps.length →
    forward (encodeAll cps) k (start cps m) = (0, start cps (m + k)) := by
  induction k with
  | zero =>
      intro m hm
      rfl
  | succ k ih =>
      intro m hm
      have hlt : m < cps.length := by omega
      rw [forward, if_pos (start_lt hcps hlt), iscont_eq, skip_start hcps hlt, ih (by omega),
        Nat.add_right_comm, Nat.add_assoc]

theorem backward_start (k : Nat) : ∀ {m : Nat}, m + k ≤ cps.length →
    backward (encodeAll cps) k (start cps (m + k)) = (0, start cps m) := by
  induction k with
  | zero =>
      intro m hm
      rfl
  | succ k ih =>
      intro m hm
      have hlt : m + k < cps.length := hm
      have hpos : 0 < start cps (m + k + 1) := by
        have := length_encode_pos (hcps _ (List.getElem_mem hlt))
        rw [start_succ hlt]
        omega
      rw [← Nat.add_assoc, backward, if_pos hpos, iscont_eq, back_start hcps hlt,
        ih (by omega)]

theorem toStart_start {m p : Nat} (hm : m < cps.length) (hlow : start cps m ≤ p)
    (hhigh : p < start cps (m + 1)) : toStart (encodeAll cps) p = start cps m := by
  induction p with
  | zero => exact (Nat.le_zero.mp hlow).symm
  | succ p ih =>
      rw [toStart, iscont_eq]
      rcases hlow.lt_or_eq with hlt | heq
      · rw [if_pos (cont_inside hcps hm hlt hhigh)]
        exact ih (Nat.le_of_lt_succ hlt) (Nat.lt_of_succ_lt hhigh)
      · rw [← heq, lead_start hcps hm]
        rfl

theorem utf8CodesIter_at {control : TValue} {m : Nat} (hm : m ≤ cps.length)
    (hat : codesNext (encodeAll cps) control = start cps m) :
    utf8CodesIter (encodeAll cps) control =
      .ok ((cps[m]?).map fun cp => (Int64.ofNat (start cps m + 1), Int64.ofNat cp)) := by
  simp only [utf8CodesIter, hat]
  rcases hm.lt_or_eq with hlt | rfl
  · have hsmall : (UInt32.ofNat cps[m]).toNat = cps[m] := by
      have : cps[m] ≤ 0x10FFFF := hcps _ (List.getElem_mem hlt)
      rw [UInt32.toNat_ofNat']
      omega
    rw [if_neg (not_le.mpr (start_lt hcps hlt)), utf8Decode_start hcps hlt,
      List.getElem?_eq_getElem hlt, Option.map_some]
    simp only [hsmall]
  · rw [if_pos (start_length cps).ge, List.getElem?_eq_none le_rfl, Option.map_none]

theorem codesNext_start {m : Nat} (hm : m < cps.length)
    (hlen : (encodeAll cps).length < 2 ^ 53) :
    codesNext (encodeAll cps) (.integer (Int64.ofNat (start cps m + 1))) = start cps (m + 1) := by
  rw [codesNext_integer (start_lt hcps hm) hlen, iscont_eq, skip_start hcps hm]

theorem codesLoop_start (hlen : (encodeAll cps).length < 2 ^ 53) (fuel : Nat) :
    ∀ {m : Nat} {control : TValue}, m ≤ cps.length → cps.length < m + fuel →
      codesNext (encodeAll cps) control = start cps m →
      codesLoop (encodeAll cps) fuel control =
        .ok (some ((cps.mapIdx fun k cp =>
          (Int64.ofNat (start cps k + 1), Int64.ofNat cp)).drop m)) := by
  induction fuel with
  | zero =>
      intro m control hm hfuel
      omega
  | succ fuel ih =>
      intro m control hm hfuel hat
      rw [codesLoop, utf8CodesIter_at hcps hm hat]
      rcases hm.lt_or_eq with hlt | rfl
      · rw [List.getElem?_eq_getElem hlt]
        simp only [Option.map_some]
        rw [ih hlt (by omega) (codesNext_start hcps hlt hlen),
          List.drop_eq_getElem_cons (i := m) (by rwa [List.length_mapIdx]), List.getElem_mapIdx]
        rfl
      · rw [List.getElem?_eq_none le_rfl, List.drop_of_length_le (by rw [List.length_mapIdx])]
        rfl

end Texts

/-! ## What the functions give back -/

/-- All arguments are code points. -/
def InRange (codes : List Int64) : Prop :=
  ∀ code ∈ codes, 0 ≤ code.toInt ∧ code.toInt ≤ 0x10FFFF

/-- All arguments pass for code points, and one does so by its low half only. -/
def Wraps (codes : List Int64) : Prop :=
  (∀ code ∈ codes, 0 ≤ code.toInt ∧ code.toInt % 2 ^ 32 ≤ 0x10FFFF) ∧
    ∃ code ∈ codes, 2 ^ 32 ≤ code.toInt

def byteSize (code : Int64) : Nat :=
  if code.toInt < 0x80 then 1
  else if code.toInt < 0x800 then 2
  else if code.toInt < 0x10000 then 3
  else 4

/-- Code points that take more bytes than an `int` counts. -/
def TooLong (codes : List Int64) : Prop :=
  InRange codes ∧ 2147483647 < (codes.map byteSize).sum

def charStart (codes : List Int64) (k : Nat) : Nat :=
  ((codes.take k).flatMap fun code => utf8Encode code.toUInt64.toUInt32).length

/-- The functions find the characters in the text again. -/
structure RoundTrips (codes : List Int64) (text : List UInt8) : Prop where
  codepoint : utf8Codepoint text (some 1) (some (-1)) = .ok codes
  len : ∃ n : Int32, utf8Len text none none = .ok (.inl n) ∧ n.toInt = codes.length
  rounds : ∀ fuel, codes.length < fuel →
    utf8Codes text fuel =
      .ok (some (codes.mapIdx fun k code => (Int64.ofNat (charStart codes k + 1), code)))
  forth : ∀ k < codes.length,
    utf8Offset text (k + 1) none = .ok (some (charStart codes k + 1))
  back : ∀ k < codes.length,
    utf8Offset text ((k : Int) - codes.length) none = .ok (some (charStart codes k + 1))
  inside : ∀ k < codes.length, ∀ p, charStart codes k ≤ p → p < charStart codes (k + 1) →
    utf8Offset text 0 (some (p + 1)) = .ok (some (charStart codes k + 1))

/-- The lists of code points are the ones accepted, and they are found again. -/
def Inverts (codes : List Int64) : Prop :=
  ((∃ text, utf8Char codes = .ok text) ↔ InRange codes) ∧
    ∀ text, utf8Char codes = .ok text → RoundTrips codes text

/-! ## The arguments of `utf8.char` -/

theorem toNat_low {code : Int64} (h : 0 ≤ code.toInt) :
    (code.toUInt64.toUInt32.toNat : Int) = code.toInt % 2 ^ 32 := by
  have hle : (0 : Int64) ≤ code := Int64.le_iff_toInt_le.mpr h
  have hcast : (code.toNatClampNeg : Int) = code.toInt := Int.toNat_of_nonneg h
  rw [UInt64.toNat_toUInt32, Int64.toNat_toUInt64_of_le hle, ← hcast]
  rfl

theorem utf8Char_eq (codes : List Int64) :
    utf8Char codes =
      if ∀ code ∈ codes, 0 ≤ code.toInt ∧ code.toInt % 2 ^ 32 ≤ 0x10FFFF then
        .ok (codes.flatMap fun code => utf8Encode code.toUInt64.toUInt32)
      else .error "value out of range" := by
  induction codes with
  | nil => rw [if_pos (by simp)]; rfl
  | cons code codes ih =>
      have hpass : (code < 0 ∨ kMaxUnicode < code.toUInt64.toUInt32) ↔
          ¬ (0 ≤ code.toInt ∧ code.toInt % 2 ^ 32 ≤ 0x10FFFF) := by
        rw [Int64.lt_iff_toInt_lt, UInt32.lt_iff_toNat_lt, Int64.toInt_zero,
          show kMaxUnicode.toNat = 0x10FFFF from rfl]
        by_cases hneg : 0 ≤ code.toInt
        · have := toNat_low hneg
          omega
        · omega
      rw [utf8Char, ih]
      simp only [List.forall_mem_cons]
      by_cases hcode : 0 ≤ code.toInt ∧ code.toInt % 2 ^ 32 ≤ 0x10FFFF
      · rw [if_neg (by rwa [hpass, not_not])]
        by_cases hcodes : ∀ code ∈ codes, 0 ≤ code.toInt ∧ code.toInt % 2 ^ 32 ≤ 0x10FFFF
        · rw [if_pos hcodes, if_pos ⟨hcode, hcodes⟩]
          rfl
        · rw [if_neg hcodes, if_neg fun h => hcodes h.2]
          rfl
      · rw [if_pos (hpass.mpr hcode), if_neg fun h => hcode h.1]

/-! ## Code points and back -/

theorem uPosrelat_last (len : Nat) : uPosrelat (-1) len = len := by
  rw [uPosrelat, if_neg (by decide)]
  split <;> omega

theorem uPosrelat_of_nonneg {pos : Int} (h : 0 ≤ pos) (len : Nat) : uPosrelat pos len = pos :=
  if_pos h

section Inverse

variable {codes : List Int64} (hcodes : InRange codes)

include hcodes

theorem le_maxCodePoint {cp : Nat} (hcp : cp ∈ codes.map Int64.toNatClampNeg) :
    cp ≤ maxCodePoint := by
  obtain ⟨code, hcode, rfl⟩ := List.mem_map.mp hcp
  have hmax : maxCodePoint = 0x10FFFF := rfl
  have hrange := hcodes code hcode
  rw [← Int64.toNat_toInt, hmax]
  omega

theorem ofNat_toNat {code : Int64} (hcode : code ∈ codes) :
    Int64.ofNat code.toNatClampNeg = code :=
  Int64.ofNat_toNatClampNeg code (Int64.le_iff_toInt_le.mpr (hcodes code hcode).1)

theorem utf8Encode_code {code : Int64} (hcode : code ∈ codes) :
    utf8Encode code.toUInt64.toUInt32 = encode code.toNatClampNeg := by
  have hrange := hcodes code hcode
  have hcast : (code.toNatClampNeg : Int) = code.toInt := Int.toNat_of_nonneg hrange.1
  have hlow : code.toUInt64.toUInt32.toNat = code.toNatClampNeg := by
    have := toNat_low hrange.1
    omega
  rw [utf8Encode_eq (by rw [hlow]; exact le_maxCodePoint hcodes (List.mem_map_of_mem hcode)),
    hlow]

theorem flatMap_eq {codes' : List Int64} (h : ∀ code ∈ codes', code ∈ codes) :
    (codes'.flatMap fun code => utf8Encode code.toUInt64.toUInt32) =
      encodeAll (codes'.map Int64.toNatClampNeg) := by
  rw [encodeAll, List.flatMap_map]
  exact List.flatMap_congr fun code hcode => utf8Encode_code hcodes (h code hcode)

theorem utf8Char_inRange :
    utf8Char codes = .ok (encodeAll (codes.map Int64.toNatClampNeg)) := by
  rw [utf8Char_eq, if_pos, flatMap_eq hcodes fun _ h => h]
  intro code hcode
  have hrange := hcodes code hcode
  omega

theorem charStart_eq (k : Nat) :
    charStart codes k = start (codes.map Int64.toNatClampNeg) k := by
  rw [charStart, start, flatMap_eq hcodes fun _ h => List.mem_of_mem_take h, List.map_take]

theorem length_encodeAll :
    (encodeAll (codes.map Int64.toNatClampNeg)).length = (codes.map byteSize).sum := by
  rw [encodeAll, List.length_flatMap, List.map_map]
  congr 1
  apply List.map_congr_left
  intro code hcode
  have hcast : (code.toNatClampNeg : Int) = code.toInt := Int.toNat_of_nonneg (hcodes code hcode).1
  rw [Function.comp_apply, length_encode, byteSize, ← hcast]
  norm_cast

variable (hshort : (codes.map byteSize).sum ≤ 2147483647)

include hshort

theorem codepoint_encodeAll :
    utf8Codepoint (encodeAll (codes.map Int64.toNatClampNeg)) (some 1) (some (-1)) =
      .ok codes := by
  have hfirst (len : Nat) : uPosrelat 1 len = 1 := uPosrelat_of_nonneg (by decide) len
  have hback : (codes.map Int64.toNatClampNeg).map Int64.ofNat = codes := by
    rw [List.map_map]
    exact (List.map_congr_left fun code hcode => ofNat_toNat hcodes hcode).trans
      (List.map_id codes)
  rw [← length_encodeAll hcodes] at hshort
  simp only [utf8Codepoint, Option.getD_some, hfirst, uPosrelat_last]
  rw [if_neg (by decide), if_neg (lt_irrefl _)]
  by_cases hempty : (encodeAll (codes.map Int64.toNatClampNeg)).length = 0
  · have hnil : codes.length = 0 := by
      have := length_le_encodeAll fun _ => le_maxCodePoint hcodes
      rw [List.length_map] at this
      omega
    rw [if_pos (by omega), List.length_eq_zero_iff.mp hnil]
  · rw [if_neg (by omega), if_neg (by unfold intMax; omega), Int.toNat_natCast]
    have hloop := codepointLoop_start (fun _ => le_maxCodePoint hcodes)
      (codes.map Int64.toNatClampNeg).length (Nat.zero_add _)
    rw [start_zero, List.drop_zero, hback] at hloop
    exact hloop

theorem len_encodeAll :
    ∃ n : Int32, utf8Len (encodeAll (codes.map Int64.toNatClampNeg)) none none = .ok (.inl n) ∧
      n.toInt = codes.length := by
  have hcps : ∀ cp ∈ codes.map Int64.toNatClampNeg, cp ≤ maxCodePoint :=
    fun cp => le_maxCodePoint hcodes
  have hfirst (len : Nat) : uPosrelat 1 len = 1 := uPosrelat_of_nonneg (by decide) len
  have hlen := length_le_encodeAll hcps
  rw [List.length_map, length_encodeAll hcodes] at hlen
  have hloop := lenLoop_start hcps codes.length 0 (m := 0) (by rw [List.length_map, Nat.zero_add])
  rw [start_zero, Int32.zero_add] at hloop
  refine ⟨Int32.ofNat codes.length, ?_, Int32.toInt_ofNat_of_lt (by omega)⟩
  simp only [utf8Len, Option.getD_none, hfirst, uPosrelat_last]
  rw [if_neg (by omega), if_neg (by omega), ← hloop]
  rfl

theorem codes_encodeAll {fuel : Nat} (hfuel : codes.length < fuel) :
    utf8Codes (encodeAll (codes.map Int64.toNatClampNeg)) fuel =
      .ok (some (codes.mapIdx fun k code => (Int64.ofNat (charStart codes k + 1), code))) := by
  have hcps : ∀ cp ∈ codes.map Int64.toNatClampNeg, cp ≤ maxCodePoint :=
    fun cp => le_maxCodePoint hcodes
  have hbytes : (encodeAll (codes.map Int64.toNatClampNeg)).length < 2 ^ 53 := by
    rw [length_encodeAll hcodes]
    omega
  have hzero : codesNext (encodeAll (codes.map Int64.toNatClampNeg)) (.integer 0) = 0 := by
    have htrunc : Datum.truncInt64 (.fin (roundInt (0 : Int64).toInt)) = 0 := by
      rw [Int64.toInt_zero, roundInt_of_small (by decide) (by decide)]
      exact Datum.truncInt64_intCast (by decide) (by decide)
    simp only [codesNext, htrunc]
    rfl
  have hloop := codesLoop_start hcps hbytes fuel (Nat.zero_le _)
    (by rw [List.length_map, Nat.zero_add]; exact hfuel) hzero
  rw [utf8Codes, hloop, List.drop_zero]
  congr 2
  apply List.ext_getElem (by simp only [List.length_mapIdx, List.length_map])
  intro k hk hk'
  rw [List.getElem_mapIdx, List.getElem_mapIdx, List.getElem_map, charStart_eq hcodes,
    ofNat_toNat hcodes (List.getElem_mem _)]

omit hshort

theorem lead_or_end {m : Nat} (hm : m ≤ codes.length) :
    ¬ (start (codes.map Int64.toNatClampNeg) m <
        (encodeAll (codes.map Int64.toNatClampNeg)).length ∧
      iscont ((encodeAll (codes.map Int64.toNatClampNeg)).getD
        (start (codes.map Int64.toNatClampNeg) m) 0) = true) := by
  rintro ⟨hlt, hcont⟩
  rcases hm.lt_or_eq with hm | rfl
  · rw [iscont_eq, lead_start (fun cp => le_maxCodePoint hcodes) (by rwa [List.length_map])]
      at hcont
    cases hcont
  · have hend := start_length (codes.map Int64.toNatClampNeg)
    rw [List.length_map] at hend
    omega

theorem offset_forth {k : Nat} (hk : k < codes.length) :
    utf8Offset (encodeAll (codes.map Int64.toNatClampNeg)) (k + 1) none =
      .ok (some (charStart codes k + 1)) := by
  have hcps : ∀ cp ∈ codes.map Int64.toNatClampNeg, cp ≤ maxCodePoint :=
    fun cp => le_maxCodePoint hcodes
  have hfirst (len : Nat) : uPosrelat 1 len = 1 := uPosrelat_of_nonneg (by decide) len
  have hforward := forward_start hcps k (m := 0) (by rw [List.length_map]; omega)
  have hlead := lead_or_end hcodes (m := 0) (Nat.zero_le _)
  rw [start_zero, Nat.zero_add] at hforward
  rw [start_zero] at hlead
  have hcount : ((k : Int) + 1 - 1).toNat = k := by omega
  simp only [utf8Offset, Option.getD_none, if_pos (show 0 ≤ (k : Int) + 1 by omega), hfirst]
  rw [if_neg (by omega), if_neg (by omega), Int.sub_self, Int.toNat_zero, if_neg hlead]
  simp only [if_neg (show ¬ (k : Int) + 1 < 0 by omega), hcount, hforward, charStart_eq hcodes]
  rfl

theorem offset_back {k : Nat} (hk : k < codes.length) :
    utf8Offset (encodeAll (codes.map Int64.toNatClampNeg)) ((k : Int) - codes.length) none =
      .ok (some (charStart codes k + 1)) := by
  have hcps : ∀ cp ∈ codes.map Int64.toNatClampNeg, cp ≤ maxCodePoint :=
    fun cp => le_maxCodePoint hcodes
  have hback := backward_start hcps (codes.length - k) (m := k) (by rw [List.length_map]; omega)
  have hlead := lead_or_end hcodes (m := codes.length) le_rfl
  have hend := start_length (codes.map Int64.toNatClampNeg)
  rw [List.length_map] at hend
  rw [Nat.add_sub_cancel' hk.le, hend] at hback
  rw [hend] at hlead
  have hcount : (-((k : Int) - codes.length)).toNat = codes.length - k := by omega
  have hpos : uPosrelat ((encodeAll (codes.map Int64.toNatClampNeg)).length + 1)
      (encodeAll (codes.map Int64.toNatClampNeg)).length =
        (encodeAll (codes.map Int64.toNatClampNeg)).length + 1 :=
    uPosrelat_of_nonneg (by omega) _
  simp only [utf8Offset, Option.getD_none, if_neg (show ¬ 0 ≤ (k : Int) - codes.length by omega),
    hpos]
  rw [if_neg (by omega), if_neg (by omega), Int.add_sub_cancel, Int.toNat_natCast, if_neg hlead]
  simp only [if_pos (show (k : Int) - codes.length < 0 by omega), hcount, hback,
    charStart_eq hcodes]
  rfl

theorem offset_inside {k p : Nat} (hk : k < codes.length) (hlow : charStart codes k ≤ p)
    (hhigh : p < charStart codes (k + 1)) :
    utf8Offset (encodeAll (codes.map Int64.toNatClampNeg)) 0 (some (p + 1)) =
      .ok (some (charStart codes k + 1)) := by
  have hcps : ∀ cp ∈ codes.map Int64.toNatClampNeg, cp ≤ maxCodePoint :=
    fun cp => le_maxCodePoint hcodes
  rw [charStart_eq hcodes] at hlow hhigh
  have hlen := start_le (codes.map Int64.toNatClampNeg) (k + 1)
  have hstart := toStart_start hcps (by rwa [List.length_map]) hlow hhigh
  simp only [utf8Offset, Option.getD_some, uPosrelat_of_nonneg (show 0 ≤ (p : Int) + 1 by omega)]
  rw [if_neg (by omega), Int.add_sub_cancel, Int.toNat_natCast, if_pos trivial, hstart,
    charStart_eq hcodes]

end Inverse

/-! ## The inverses -/

theorem roundTrips_iff {codes : List Int64} (hcodes : InRange codes) :
    RoundTrips codes (encodeAll (codes.map Int64.toNatClampNeg)) ↔ ¬ TooLong codes := by
  constructor
  · rintro hround ⟨-, hlong⟩
    have hcodepoint := hround.codepoint
    rw [← length_encodeAll hcodes] at hlong
    simp only [utf8Codepoint, Option.getD_some, uPosrelat_last,
      uPosrelat_of_nonneg (show (0 : Int) ≤ 1 by decide)] at hcodepoint
    rw [if_neg (by decide), if_neg (lt_irrefl _), if_neg (by omega),
      if_pos (by unfold intMax; omega)] at hcodepoint
    cases hcodepoint
  · intro hlong
    have hshort : (codes.map byteSize).sum ≤ 2147483647 :=
      not_lt.mp fun h => hlong ⟨hcodes, h⟩
    exact {
      codepoint := codepoint_encodeAll hcodes hshort
      len := len_encodeAll hcodes hshort
      rounds := fun fuel => codes_encodeAll hcodes hshort
      forth := fun k => offset_forth hcodes
      back := fun k => offset_back hcodes
      inside := fun k hk p => offset_inside hcodes hk }

theorem inverts_iff (codes : List Int64) : Inverts codes ↔ ¬ Wraps codes ∧ ¬ TooLong codes := by
  by_cases hcodes : InRange codes
  · have hwraps : ¬ Wraps codes := by
      rintro ⟨-, code, hcode, hbig⟩
      have := hcodes code hcode
      omega
    rw [Inverts, utf8Char_inRange hcodes]
    constructor
    · rintro ⟨-, hround⟩
      exact ⟨hwraps, (roundTrips_iff hcodes).mp (hround _ rfl)⟩
    · rintro ⟨-, hlong⟩
      refine ⟨⟨fun _ => hcodes, fun _ => ⟨_, rfl⟩⟩, ?_⟩
      rintro text htext
      obtain rfl := Except.ok.inj htext
      exact (roundTrips_iff hcodes).mpr hlong
  · have hlong : ¬ TooLong codes := fun h => hcodes h.1
    rw [Inverts, utf8Char_eq]
    by_cases hpass : ∀ code ∈ codes, 0 ≤ code.toInt ∧ code.toInt % 2 ^ 32 ≤ 0x10FFFF
    · have hwraps : Wraps codes := by
        refine ⟨hpass, ?_⟩
        by_contra hsmall
        refine hcodes fun code hcode => ?_
        have hfits : ¬ 2 ^ 32 ≤ code.toInt := fun h => hsmall ⟨code, hcode, h⟩
        have := hpass code hcode
        omega
      rw [if_pos hpass]
      exact ⟨fun h => absurd (h.1.mp ⟨_, rfl⟩) hcodes, fun h => absurd hwraps h.1⟩
    · rw [if_neg hpass]
      refine ⟨fun _ => ⟨fun h => hpass h.1, hlong⟩, fun _ => ⟨⟨?_, fun h => absurd h hcodes⟩, ?_⟩⟩
      · rintro ⟨text, htext⟩
        cases htext
      · intro text htext
        cases htext

/-- The decoder accepts what the encoder writes, the escapes of the lexer are written the
same way, and a list is found again unless a value is cut to its low half. -/
theorem utf8_inverse_iff (codes : List Int64) (code : Int64) (s : List UInt8) (i n : Nat)
    (cp : UInt32) :
    (utf8Decode s i = some (cp, n) ↔
      cp ≤ kMaxUnicode ∧ n = (utf8Encode cp).length ∧ ∃ rest, s.drop i = utf8Encode cp ++ rest) ∧
    (InRange [code] → utf8Char [code] = .ok (Lexer.utf8Bytes code.toInt.toNat)) ∧
    (Inverts codes ↔ ¬ Wraps codes ∧ ¬ TooLong codes) := by
  refine ⟨utf8Decode_eq_some_iff, fun hcode => ?_, inverts_iff codes⟩
  have hcp := le_maxCodePoint hcode (List.mem_map_of_mem (List.mem_singleton_self code))
  rw [utf8Char_inRange hcode, Int64.toNat_toInt, utf8Bytes_eq hcp]
  exact congrArg Except.ok (List.flatMap_singleton encode _)

/-- `utf8.char(4294967361)` is `"A"`. -/
theorem char_low_half :
    utf8Char [4294967361] = .ok [65] ∧ ¬ Inverts [4294967361] := by
  have hchar : utf8Char [4294967361] = .ok [65] := by decide
  refine ⟨hchar, fun h => ?_⟩
  have hrange := h.1.mp ⟨_, hchar⟩ 4294967361 (List.mem_singleton_self _)
  exact absurd hrange.2 (by decide)

end Utf8Lib

end Luatier
