import Mathlib.Data.List.TakeWhile
import Mathlib.Tactic.Linarith
import Mathlib.Tactic.Ring
import Luatier.Lib.CLocale

/-!
# UTF-8

Characters are numbers up to `0x10FFFF`, surrogates included.  A character is a
leading byte and up to three continuation bytes, so in a text the leading bytes show
where the characters start.
-/

namespace Utf8

def maxCodePoint : Nat := 0x10FFFF

def isCont (b : UInt8) : Bool := 128 ≤ b.toNat && b.toNat < 192

def cont (bits : Nat) : UInt8 := UInt8.ofNat (128 + bits % 64)

def encode (cp : Nat) : List UInt8 :=
  if cp < 0x80 then [UInt8.ofNat cp]
  else if cp < 0x800 then [UInt8.ofNat (192 + cp / 64), cont cp]
  else if cp < 0x10000 then [UInt8.ofNat (224 + cp / 4096), cont (cp / 64), cont cp]
  else [UInt8.ofNat (240 + cp / 262144), cont (cp / 4096), cont (cp / 64), cont cp]

def readConts : Nat → Nat → List UInt8 → Option (Nat × List UInt8)
  | 0, v, s => some (v, s)
  | _ + 1, _, [] => none
  | n + 1, v, b :: s => if isCont b then readConts n (v * 64 + b.toNat % 64) s else none

/-- The first character and what is left; only the shortest encoding is one. -/
def decode : List UInt8 → Option (Nat × List UInt8)
  | [] => none
  | b :: s =>
      if b.toNat < 128 then some (b.toNat, s)
      else if b.toNat < 192 then none
      else if b.toNat < 224 then
        (readConts 1 (b.toNat % 32) s).filter fun r => 0x80 ≤ r.1
      else if b.toNat < 240 then
        (readConts 2 (b.toNat % 16) s).filter fun r => 0x800 ≤ r.1
      else if b.toNat < 248 then
        (readConts 3 (b.toNat % 8) s).filter fun r => 0x10000 ≤ r.1 && r.1 ≤ maxCodePoint
      else none

/-! ## Bytes -/

theorem toNat_cont (bits : Nat) : (cont bits).toNat = 128 + bits % 64 := by
  rw [cont, UInt8.toNat_ofNat']
  omega

theorem isCont_cont (bits : Nat) : isCont (cont bits) = true := by
  simp only [isCont, toNat_cont, Bool.and_eq_true, decide_eq_true_eq]
  omega

theorem eq_cont {b : UInt8} {bits : Nat} (hcont : isCont b = true)
    (h : b.toNat % 64 = bits % 64) : b = cont bits := by
  simp only [isCont, Bool.and_eq_true, decide_eq_true_eq] at hcont
  apply UInt8.toNat_inj.mp
  rw [toNat_cont]
  omega

theorem eq_ofNat {b : UInt8} {n : Nat} (h : b.toNat = n) : b = UInt8.ofNat n := by
  rw [← h, UInt8.ofNat_toNat]

/-! ## The decoder inverts the encoder -/

theorem readConts_cont (n v bits : Nat) (s : List UInt8) :
    readConts (n + 1) v (cont bits :: s) = readConts n (v * 64 + bits % 64) s := by
  rw [readConts, isCont_cont, if_pos rfl, toNat_cont]
  congr 2
  omega

theorem readConts_succ {n v : Nat} {s : List UInt8} {r : Nat × List UInt8}
    (h : readConts (n + 1) v s = some r) :
    ∃ b t, s = b :: t ∧ isCont b = true ∧ readConts n (v * 64 + b.toNat % 64) t = some r := by
  cases s with
  | nil => simp [readConts] at h
  | cons b t =>
      simp only [readConts, Option.ite_none_right_eq_some] at h
      exact ⟨b, t, rfl, h.1, h.2⟩

theorem decode_encode {cp : Nat} (hcp : cp ≤ maxCodePoint) (s : List UInt8) :
    decode (encode cp ++ s) = some (cp, s) := by
  have hmax : cp ≤ 0x10FFFF := hcp
  unfold encode
  split_ifs with h1 h2 h3
  · have hb : (UInt8.ofNat cp).toNat = cp := by
      rw [UInt8.toNat_ofNat']
      omega
    simp [decode, hb, h1]
  · have hb : (UInt8.ofNat (192 + cp / 64)).toNat = 192 + cp / 64 := by
      rw [UInt8.toNat_ofNat']
      omega
    simp only [decode, List.cons_append, List.nil_append, hb, readConts_cont]
    rw [if_neg (by omega), if_neg (by omega), if_pos (by omega), readConts,
      show (192 + cp / 64) % 32 * 64 + cp % 64 = cp by omega]
    simp
    omega
  · have hb : (UInt8.ofNat (224 + cp / 4096)).toNat = 224 + cp / 4096 := by
      rw [UInt8.toNat_ofNat']
      omega
    simp only [decode, List.cons_append, List.nil_append, hb, readConts_cont]
    rw [if_neg (by omega), if_neg (by omega), if_neg (by omega), if_pos (by omega), readConts,
      show ((224 + cp / 4096) % 16 * 64 + cp / 64 % 64) * 64 + cp % 64 = cp by omega]
    simp
    omega
  · have hb : (UInt8.ofNat (240 + cp / 262144)).toNat = 240 + cp / 262144 := by
      rw [UInt8.toNat_ofNat']
      omega
    simp only [decode, List.cons_append, List.nil_append, hb, readConts_cont]
    rw [if_neg (by omega), if_neg (by omega), if_neg (by omega), if_neg (by omega),
      if_pos (by omega), readConts,
      show (((240 + cp / 262144) % 8 * 64 + cp / 4096 % 64) * 64 + cp / 64 % 64) * 64 +
        cp % 64 = cp by omega]
    simp [hcp]
    omega

theorem encode_of_decode {s rest : List UInt8} {cp : Nat} (h : decode s = some (cp, rest)) :
    cp ≤ maxCodePoint ∧ s = encode cp ++ rest := by
  cases s with
  | nil => simp [decode] at h
  | cons b s =>
      have hb := b.toNat_lt
      simp only [decode] at h
      split_ifs at h with h1 h2 h3 h4 h5
      · obtain ⟨rfl, rfl⟩ := Prod.mk.inj (Option.some.inj h)
        exact ⟨by unfold maxCodePoint; omega, by simp [encode, h1]⟩
      · obtain ⟨hread, hlow⟩ := Option.filter_eq_some_iff.mp h
        obtain ⟨c, t, rfl, hc, hread⟩ := readConts_succ hread
        obtain ⟨hcp, rfl⟩ := Prod.mk.inj (Option.some.inj hread)
        simp only [decide_eq_true_eq] at hlow
        refine ⟨by unfold maxCodePoint; omega, ?_⟩
        rw [encode, if_neg (by omega), if_pos (by omega), ← eq_ofNat (b := b) (by omega),
          ← eq_cont hc (by omega)]
        rfl
      · obtain ⟨hread, hlow⟩ := Option.filter_eq_some_iff.mp h
        obtain ⟨c, t, rfl, hc, hread⟩ := readConts_succ hread
        obtain ⟨d, u, rfl, hd, hread⟩ := readConts_succ hread
        obtain ⟨hcp, rfl⟩ := Prod.mk.inj (Option.some.inj hread)
        simp only [decide_eq_true_eq] at hlow
        refine ⟨by unfold maxCodePoint; omega, ?_⟩
        rw [encode, if_neg (by omega), if_neg (by omega), if_pos (by omega),
          ← eq_ofNat (b := b) (by omega), ← eq_cont hc (by omega), ← eq_cont hd (by omega)]
        rfl
      · obtain ⟨hread, hlow⟩ := Option.filter_eq_some_iff.mp h
        obtain ⟨c, t, rfl, hc, hread⟩ := readConts_succ hread
        obtain ⟨d, u, rfl, hd, hread⟩ := readConts_succ hread
        obtain ⟨e, v, rfl, he, hread⟩ := readConts_succ hread
        obtain ⟨hcp, rfl⟩ := Prod.mk.inj (Option.some.inj hread)
        simp only [Bool.and_eq_true, decide_eq_true_eq] at hlow
        refine ⟨hlow.2, ?_⟩
        rw [encode, if_neg (by omega), if_neg (by omega), if_neg (by omega),
          ← eq_ofNat (b := b) (by omega), ← eq_cont hc (by omega), ← eq_cont hd (by omega),
          ← eq_cont he (by omega)]
        rfl

theorem readConts_eq (n v : Nat) (s : List UInt8) :
    readConts n v s = (readConts n 0 s).map fun r => (v * 64 ^ n + r.1, r.2) := by
  induction n generalizing v s with
  | zero => simp [readConts]
  | succ n ih =>
      cases s with
      | nil => rfl
      | cons b s =>
          simp only [readConts]
          split
          · rw [ih, ih (0 * 64 + _), Option.map_map]
            congr 1
            funext r
            simp only [Function.comp_apply, Prod.mk.injEq, and_true]
            ring
          · rfl

theorem readConts_lt {n : Nat} {s rest : List UInt8} {v : Nat}
    (h : readConts n 0 s = some (v, rest)) : v < 64 ^ n := by
  induction n generalizing s v rest with
  | zero =>
      obtain ⟨rfl, -⟩ := Prod.mk.inj (Option.some.inj h)
      exact Nat.one_pos
  | succ n ih =>
      obtain ⟨b, t, rfl, -, hread⟩ := readConts_succ h
      rw [readConts_eq] at hread
      obtain ⟨⟨v', rest'⟩, hinner, heq⟩ := Option.map_eq_some_iff.mp hread
      obtain ⟨rfl, -⟩ := Prod.mk.inj heq
      have hlt := ih hinner
      have hmod : b.toNat % 64 < 64 := Nat.mod_lt _ (by decide)
      have hmul : (b.toNat % 64 + 1) * 64 ^ n ≤ 64 * 64 ^ n := Nat.mul_le_mul_right _ hmod
      rw [pow_succ]
      simp only [Nat.zero_mul, Nat.zero_add]
      linarith

/-! ## Texts -/

def encodeAll (cps : List Nat) : List UInt8 := cps.flatMap encode

def skip (p : UInt8 → Bool) (s : List UInt8) (i : Nat) : Nat :=
  i + ((s.drop i).takeWhile p).length

def back (p : UInt8 → Bool) (s : List UInt8) : Nat → Nat
  | 0 => 0
  | i + 1 => if 0 < i ∧ p (s.getD i 0) = true then back p s i else i

theorem encode_eq_cons {cp : Nat} (hcp : cp ≤ maxCodePoint) :
    ∃ b t, encode cp = b :: t ∧ isCont b = false ∧ ∀ c ∈ t, isCont c = true := by
  have hmax : cp ≤ 0x10FFFF := hcp
  have hlead {n : Nat} (hn : n < 256) (hout : n < 128 ∨ 192 ≤ n) :
      isCont (UInt8.ofNat n) = false := by
    rw [isCont, UInt8.toNat_ofNat', Nat.mod_eq_of_lt hn, Bool.and_eq_false_iff,
      decide_eq_false_iff_not, decide_eq_false_iff_not]
    omega
  unfold encode
  split_ifs
  · exact ⟨_, _, rfl, hlead (by omega) (by omega), by simp⟩
  · exact ⟨_, _, rfl, hlead (by omega) (by omega), by simp [isCont_cont]⟩
  · exact ⟨_, _, rfl, hlead (by omega) (by omega), by simp [isCont_cont]⟩
  · exact ⟨_, _, rfl, hlead (by omega) (by omega), by simp [isCont_cont]⟩

theorem length_encode_pos {cp : Nat} (hcp : cp ≤ maxCodePoint) : 0 < (encode cp).length := by
  obtain ⟨b, t, hencode, -⟩ := encode_eq_cons hcp
  simp [hencode]

theorem head_encodeAll {cps : List Nat} (hcps : ∀ cp ∈ cps, cp ≤ maxCodePoint) {b : UInt8}
    (hb : b ∈ (encodeAll cps).head?) : isCont b = false := by
  cases cps with
  | nil => simp [encodeAll] at hb
  | cons cp cps =>
      obtain ⟨d, t, hencode, hd, -⟩ := encode_eq_cons (hcps cp List.mem_cons_self)
      simp only [encodeAll, List.flatMap_cons, hencode, List.cons_append, List.head?_cons,
        Option.mem_some_iff] at hb
      exact hb ▸ hd

section Stepping

variable {cp : Nat} (hcp : cp ≤ maxCodePoint) (pre : List UInt8) {post : List UInt8}

include hcp

theorem skip_char (hpost : ∀ b ∈ post.head?, isCont b = false) :
    skip isCont (pre ++ (encode cp ++ post)) (pre.length + 1) =
      pre.length + (encode cp).length := by
  obtain ⟨b, t, hencode, -, ht⟩ := encode_eq_cons hcp
  have hrun : (t ++ post).takeWhile isCont = t := by
    rw [List.takeWhile_append_of_pos ht]
    cases post with
    | nil => simp
    | cons d post => simp [hpost d rfl]
  have hdrop : (pre ++ (encode cp ++ post)).drop (pre.length + 1) = t ++ post := by
    rw [hencode, ← List.drop_drop, List.drop_left]
    rfl
  rw [skip, hdrop, hrun, hencode, List.length_cons]
  omega

theorem back_char (post : List UInt8) :
    back isCont (pre ++ (encode cp ++ post)) (pre.length + (encode cp).length) = pre.length := by
  obtain ⟨b, t, hencode, hb, ht⟩ := encode_eq_cons hcp
  have hstep (k : Nat) (hk : k ≤ t.length) :
      back isCont (pre ++ (b :: t ++ post)) (pre.length + k + 1) = pre.length := by
    induction k with
    | zero =>
        have hlead : (pre ++ (b :: t ++ post)).getD pre.length 0 = b := by simp
        rw [Nat.add_zero, back, hlead, hb]
        simp
    | succ k ih =>
        have hlt : k < t.length := hk
        have hcont : (pre ++ (b :: t ++ post)).getD (pre.length + (k + 1)) 0 = t[k] := by
          rw [List.getD_eq_getElem?_getD, List.getElem?_append_right (by omega),
            Nat.add_sub_cancel_left, List.cons_append, List.getElem?_cons_succ,
            List.getElem?_append_left hlt, List.getElem?_eq_getElem hlt, Option.getD_some]
        rw [back, if_pos ⟨by omega, by rw [hcont]; exact ht _ (List.getElem_mem hlt)⟩]
        exact ih hlt.le
  rw [hencode, List.length_cons, ← Nat.add_assoc]
  exact hstep t.length le_rfl

end Stepping

/-! ## Where the characters start -/

def start (cps : List Nat) (m : Nat) : Nat := (encodeAll (cps.take m)).length

section Starts

variable {cps : List Nat}

@[simp] theorem start_zero (cps : List Nat) : start cps 0 = 0 := rfl

theorem encodeAll_cons (cp : Nat) (cps : List Nat) :
    encodeAll (cp :: cps) = encode cp ++ encodeAll cps := List.flatMap_cons

theorem encodeAll_append (cps cps' : List Nat) :
    encodeAll (cps ++ cps') = encodeAll cps ++ encodeAll cps' := List.flatMap_append

theorem start_length (cps : List Nat) : start cps cps.length = (encodeAll cps).length := by
  rw [start, List.take_length]

theorem encodeAll_split {m : Nat} (hm : m < cps.length) :
    encodeAll cps =
      encodeAll (cps.take m) ++ (encode cps[m] ++ encodeAll (cps.drop (m + 1))) := by
  rw [← encodeAll_cons, ← encodeAll_append, ← List.drop_eq_getElem_cons hm,
    List.take_append_drop]

theorem start_succ {m : Nat} (hm : m < cps.length) :
    start cps (m + 1) = start cps m + (encode cps[m]).length := by
  rw [start, start, ← List.take_append_getElem hm, encodeAll_append, List.length_append,
    encodeAll_cons, show encodeAll [] = [] from rfl, List.append_nil]

theorem start_le (cps : List Nat) (m : Nat) : start cps m ≤ (encodeAll cps).length := by
  conv => rhs; rw [← List.take_append_drop m cps, encodeAll_append, List.length_append]
  exact Nat.le_add_right ..

theorem drop_start {m : Nat} (hm : m < cps.length) :
    (encodeAll cps).drop (start cps m) = encode cps[m] ++ encodeAll (cps.drop (m + 1)) := by
  rw [encodeAll_split hm, start, List.drop_left]

variable (hcps : ∀ cp ∈ cps, cp ≤ maxCodePoint)

include hcps

theorem start_lt {m : Nat} (hm : m < cps.length) : start cps m < (encodeAll cps).length := by
  have hpos := length_encode_pos (hcps _ (List.getElem_mem hm))
  have hle := start_le cps (m + 1)
  rw [start_succ hm] at hle
  omega

theorem length_le_encodeAll : cps.length ≤ (encodeAll cps).length := by
  have hlt (m : Nat) (hm : m ≤ cps.length) : m ≤ start cps m := by
    induction m with
    | zero => exact Nat.zero_le _
    | succ m ih =>
        have hpos := length_encode_pos (hcps _ (List.getElem_mem hm))
        rw [start_succ hm]
        exact Nat.add_le_add (ih (Nat.le_of_succ_le hm)) hpos
  exact start_length cps ▸ hlt cps.length le_rfl

theorem skip_start {m : Nat} (hm : m < cps.length) :
    skip isCont (encodeAll cps) (start cps m + 1) = start cps (m + 1) := by
  have hpost (b : UInt8) (hb : b ∈ (encodeAll (cps.drop (m + 1))).head?) : isCont b = false :=
    head_encodeAll (fun cp hcp => hcps cp (List.mem_of_mem_drop hcp)) hb
  rw [start_succ hm]
  conv => lhs; rw [encodeAll_split hm]
  exact skip_char (hcps _ (List.getElem_mem hm)) _ hpost

theorem back_start {m : Nat} (hm : m < cps.length) :
    back isCont (encodeAll cps) (start cps (m + 1)) = start cps m := by
  rw [start_succ hm]
  conv => lhs; rw [encodeAll_split hm]
  exact back_char (hcps _ (List.getElem_mem hm)) _ _

theorem lead_start {m : Nat} (hm : m < cps.length) :
    isCont ((encodeAll cps).getD (start cps m) 0) = false := by
  obtain ⟨b, t, hencode, hb, -⟩ := encode_eq_cons (hcps _ (List.getElem_mem hm))
  have hdrop := drop_start hm
  rw [hencode] at hdrop
  have hget : (encodeAll cps)[start cps m]? = some b := by
    rw [← Nat.add_zero (start cps m), ← List.getElem?_drop, hdrop]
    rfl
  rw [List.getD_eq_getElem?_getD, hget]
  exact hb

theorem cont_inside {m p : Nat} (hm : m < cps.length) (hlow : start cps m < p)
    (hhigh : p < start cps (m + 1)) : isCont ((encodeAll cps).getD p 0) = true := by
  obtain ⟨b, t, hencode, -, ht⟩ := encode_eq_cons (hcps _ (List.getElem_mem hm))
  obtain ⟨k, rfl⟩ : ∃ k, p = start cps m + (k + 1) := ⟨p - start cps m - 1, by omega⟩
  rw [start_succ hm, hencode, List.length_cons] at hhigh
  have hlt : k < t.length := by omega
  have hget : (encodeAll cps).getD (start cps m + (k + 1)) 0 = t[k] := by
    rw [List.getD_eq_getElem?_getD, ← List.getElem?_drop, drop_start hm, hencode,
      List.cons_append, List.getElem?_cons_succ, List.getElem?_append_left hlt,
      List.getElem?_eq_getElem hlt, Option.getD_some]
  rw [hget]
  exact ht _ (List.getElem_mem hlt)

end Starts

end Utf8
