import Luatier.Runtime.Table

/-!
# The table invariant

Keys are compared after integral floats became integers.  On such canonical
keys `valuesEqual` is equality, the hash part is linearly probed, and integers
that the array part serves never occur in the hash part.
-/

namespace Luatier

open Binary64

namespace Table

/-! ## Canonical keys -/

def canonKey (k : TValue) : TValue := ((keyAsInteger k).map .integer).getD k

/-- The keys that `set` accepts. -/
def ValidKey (k : TValue) : Prop := k ≠ .nil ∧ isNaN k = false

def Canonical (k : TValue) : Prop := ValidKey k ∧ canonKey k = k

private theorem roundInt_bounds :
    roundInt (-(2 ^ 63)) = -(2 ^ 63) ∧ roundInt (2 ^ 63 - 1) = 2 ^ 63 := by
  decide

theorem keyAsInteger_number {w : Word} {n : Int64} :
    keyAsInteger (.number w) = some n ↔ decode w = .fin n.toInt := by
  have hlow : -(2 ^ 63) ≤ n.toInt := n.le_toInt
  have hhigh : n.toInt < 2 ^ 63 := n.toInt_lt
  obtain ⟨hmin, hmax⟩ := roundInt_bounds
  unfold keyAsInteger
  simp only [hmin, hmax]
  cases hd : decode w with
  | nan => simp
  | inf s => simp
  | fin q =>
      simp only [Datum.fin.injEq]
      constructor
      · intro h
        split at h
        · rename_i hq
          obtain ⟨hql, -, hfloor⟩ := hq
          split at h
          · rename_i hround
            -- the value survives the round trip, so it is the cast integer
            have hout : (Datum.truncInt64 (.fin q) : ℚ) = q := by
              by_cases hfit : ⌊q⌋ < 2 ^ 63
              · have hfl : -(2 ^ 63) ≤ ⌊q⌋ := by
                  rw [hfloor] at hql
                  exact_mod_cast hql
                have := Datum.truncInt64_intCast hfl hfit
                rw [← hfloor] at this
                rw [this, ← hfloor]
              · exfalso
                have htrunc : Datum.truncInt64 (.fin q) = -(2 ^ 63) := by
                  rw [hfloor, Datum.truncInt64]
                  simp only [Int.floor_intCast, Int.ceil_intCast, ite_self]
                  exact if_neg fun hlt => hfit hlt.2
                rw [htrunc, hmin] at hround
                rw [hfloor] at hround
                have : ⌊q⌋ = -(2 ^ 63) := by exact_mod_cast hround.symm
                omega
            have hrange : -(2 ^ 63) ≤ Datum.truncInt64 (.fin q) ∧
                Datum.truncInt64 (.fin q) < 2 ^ 63 := by
              simp only [Datum.truncInt64]
              split <;> omega
            rw [← Option.some.inj h,
              Int64.toInt_ofInt_of_le hrange.1 (by omega), hout]
          · contradiction
        · contradiction
      · rintro rfl
        have htrunc := Datum.truncInt64_intCast hlow hhigh
        have hhighQ : (n.toInt : ℚ) ≤ ((2 ^ 63 : Int) : ℚ) :=
          Int.cast_le.mpr hhigh.le
        have hlowQ : ((-(2 ^ 63) : Int) : ℚ) ≤ (n.toInt : ℚ) :=
          Int.cast_le.mpr hlow
        rw [if_pos ⟨hlowQ, hhighQ, by simp⟩, htrunc, roundInt_of_decode hd]
        simp

theorem keyAsInteger_eq_floatToInteger (w : Word) :
    keyAsInteger (.number w) = floatToInteger w := by
  cases h : floatToInteger w with
  | some n => exact keyAsInteger_number.mpr (floatToInteger_eq_some.mp h)
  | none =>
      cases h' : keyAsInteger (.number w) with
      | none => rfl
      | some n =>
          rw [floatToInteger_eq_some.mpr (keyAsInteger_number.mp h')] at h
          contradiction

theorem canonKey_integer (n : Int64) : canonKey (.integer n) = .integer n := rfl

theorem canonical_integer (n : Int64) : Canonical (.integer n) :=
  ⟨⟨by simp, rfl⟩, rfl⟩

theorem canonKey_eq_of_keyAsInteger_none {k : TValue}
    (h : keyAsInteger k = none) : canonKey k = k := by
  simp [canonKey, h]

theorem canonKey_eq_of_keyAsInteger_some {k : TValue} {n : Int64}
    (h : keyAsInteger k = some n) : canonKey k = .integer n := by
  simp [canonKey, h]

theorem canonKey_canonical {k : TValue} (h : ValidKey k) :
    Canonical (canonKey k) := by
  cases hk : keyAsInteger k with
  | some n =>
      rw [canonKey_eq_of_keyAsInteger_some hk]
      exact canonical_integer n
  | none =>
      rw [canonKey_eq_of_keyAsInteger_none hk]
      exact ⟨h, canonKey_eq_of_keyAsInteger_none hk⟩

theorem keyAsInteger_canonKey (k : TValue) :
    keyAsInteger (canonKey k) = keyAsInteger k := by
  cases hk : keyAsInteger k with
  | some n => rw [canonKey_eq_of_keyAsInteger_some hk]; rfl
  | none => rw [canonKey_eq_of_keyAsInteger_none hk, hk]

theorem Canonical.number {w : Word} (h : Canonical (.number w)) :
    floatToInteger w = none ∧ decode w ≠ .nan := by
  obtain ⟨⟨-, hnan⟩, hcanon⟩ := h
  constructor
  · cases hw : floatToInteger w with
    | none => rfl
    | some n =>
        rw [canonKey, keyAsInteger_eq_floatToInteger, hw] at hcanon
        simp at hcanon
  · intro hd
    simp [isNaN, hd, Datum.eq] at hnan

theorem decode_ne_zero {w : Word} (h : floatToInteger w = none) :
    decode w ≠ .fin 0 := by
  intro hd
  have := (floatToInteger_eq_some (w := w) (n := 0)).mpr (by simpa using hd)
  rw [h] at this
  contradiction

theorem valuesEqual_iff {k k' : TValue} (h : Canonical k) (h' : Canonical k') :
    valuesEqual k k' = true ↔ k = k' := by
  cases k <;> cases k' <;> simp only [valuesEqual, beq_iff_eq, reduceCtorEq,
    TValue.boolean.injEq, TValue.integer.injEq, TValue.string.injEq,
    TValue.table.injEq, TValue.function.injEq, TValue.userdata.injEq,
    TValue.thread.injEq, TValue.lightUserdata.injEq, TValue.number.injEq,
    Bool.false_eq_true, iff_false]
  case integer.number n w => simp [h'.number.1]
  case number.integer w n => simp [h.number.1]
  case number.number w w' =>
    obtain ⟨hint, hnan⟩ := h.number
    rw [Datum.eq_iff]
    constructor
    · rintro ⟨heq, -⟩
      exact decode_inj heq hnan (decode_ne_zero hint)
    · rintro rfl
      exact ⟨rfl, hnan⟩

theorem valuesEqual_nil_left {k : TValue} (h : k ≠ .nil) :
    valuesEqual .nil k = false := by
  cases k <;> simp_all [valuesEqual]

/-! ## Slots of the hash part -/

def node (t : Table) (i : Nat) : TableNode := t.hash.getD i {}

def slotView (t : Table) (i : Nat) : Probing.Slot TValue :=
  if (t.node i).used then
    if (t.node i).key.isNil then .dead else .key (t.node i).key
  else .free

def home (L : InternedStrings) (t : Table) (k : TValue) : Nat :=
  hashKey L k t.hash.length

/-- The hash part holds a key only when no array branch of a store takes it. -/
def InHash (t : Table) (k : TValue) : Prop :=
  ∀ n, keyAsInteger k = some n →
    t.arrayIndex? n = none ∧ ¬ (1 ≤ n.toInt ∧ n.toInt ≤ 64)

/--
The representation invariant: a key occurs once across both parts, its probe
sequence reaches it, and tombstones never end a search.
-/
structure Wf (L : InternedStrings) (t : Table) : Prop where
  hash_pos : 0 < t.hash.length
  array_lt : t.array.length < 2 ^ 63
  probed : Probing.Probed t.hash.length (t.home L) t.slotView
  keys : ∀ {i k}, i < t.hash.length → t.slotView i = .key k →
    Canonical k ∧ t.InHash k
  nil_value : ∀ i, (t.node i).key = .nil → (t.node i).value = .nil
  unused : ∀ i, (t.node i).used = false → (t.node i).key = .nil

theorem slotView_eq_key {t : Table} {i : Nat} {k : TValue} :
    t.slotView i = .key k ↔
      (t.node i).used = true ∧ (t.node i).key = k ∧ k ≠ .nil := by
  unfold slotView
  split
  · rename_i hused
    split
    · rename_i hnil
      simp only [reduceCtorEq, false_iff, not_and, not_not]
      rintro - rfl
      exact TValue.isNil_iff.mp hnil
    · rename_i hnil
      have hne : (t.node i).key ≠ .nil := by simpa using hnil
      constructor
      · intro h
        cases h
        exact ⟨hused, rfl, hne⟩
      · rintro ⟨-, rfl, -⟩
        rfl
  · rename_i hused
    simp [hused]

theorem slotView_eq_free {t : Table} {i : Nat} :
    t.slotView i = .free ↔ (t.node i).used = false := by
  unfold slotView
  split
  · rename_i hused
    split <;> simp [hused]
  · rename_i hused
    simpa using hused

/-! ## The probe loop -/

section

variable (hash : List TableNode) (lookup : TValue) (idx : Nat)

def nodeAt (step : Nat) : TableNode :=
  hash.getD (Probing.probe hash.length idx step) {}

def Passed (step : Nat) : Prop :=
  (nodeAt hash idx step).used = true ∧
    valuesEqual (nodeAt hash idx step).key lookup = false

def TombOk (firstTomb : Option Nat) (steps : Nat) : Prop :=
  match firstTomb with
  | none => ∀ step < steps, (nodeAt hash idx step).value ≠ .nil
  | some slot => ∃ step < steps,
      slot = Probing.probe hash.length idx step ∧
        (nodeAt hash idx step).value = .nil

def ProbeResult : ProbeEnd → Prop
  | .unused slot firstTomb => ∃ step < hash.length,
      slot = Probing.probe hash.length idx step ∧
        (nodeAt hash idx step).used = false ∧
        (∀ earlier < step, Passed hash lookup idx earlier) ∧
        TombOk hash idx firstTomb step
  | .found slot _ => ∃ step < hash.length,
      slot = Probing.probe hash.length idx step ∧
        (nodeAt hash idx step).used = true ∧
        valuesEqual (nodeAt hash idx step).key lookup = true
  | .exhausted firstTomb =>
      (∀ step < hash.length, Passed hash lookup idx step) ∧
        TombOk hash idx firstTomb hash.length

private theorem probeLoop_result (remaining probe : Nat)
    (firstTomb : Option Nat) (hsteps : probe + remaining = hash.length)
    (hpassed : ∀ step < probe, Passed hash lookup idx step)
    (htomb : TombOk hash idx firstTomb probe) :
    ProbeResult hash lookup idx
      (probeLoop hash lookup idx remaining probe firstTomb) := by
  induction remaining generalizing probe firstTomb with
  | zero =>
      obtain rfl : probe = hash.length := by omega
      exact ⟨hpassed, htomb⟩
  | succ remaining ih =>
      rw [probeLoop]
      by_cases hused : (nodeAt hash idx probe).used = true
      · have hused' : (!(nodeAt hash idx probe).used) = false := by simp [hused]
        simp only [nodeAt] at hused'
        simp only [hused', Bool.false_eq_true, if_false]
        by_cases heq : valuesEqual (nodeAt hash idx probe).key lookup = true
        · simp only [nodeAt] at heq
          simp only [heq, if_true]
          exact ⟨probe, by omega, rfl, hused, heq⟩
        · have heq' : valuesEqual (nodeAt hash idx probe).key lookup = false := by
            simpa using heq
          have hnext : Passed hash lookup idx probe := ⟨hused, heq'⟩
          simp only [nodeAt] at heq'
          simp only [heq', Bool.false_eq_true, if_false]
          apply ih (probe + 1) _ (by omega)
          · intro step hstep
            rcases Nat.lt_succ_iff_lt_or_eq.mp hstep with hlt | rfl
            · exact hpassed step hlt
            · exact hnext
          · cases firstTomb with
            | some slot =>
                obtain ⟨step, hstep, hslot⟩ := htomb
                exact ⟨step, by omega, hslot⟩
            | none =>
                by_cases hnil : (nodeAt hash idx probe).value = .nil
                · have : (hash.getD (Probing.probe hash.length idx probe)
                      {}).value.isNil = true := by
                    simpa [nodeAt] using hnil
                  simp only [Option.isNone_none, this, Bool.and_self, if_true]
                  exact ⟨probe, by omega, rfl, hnil⟩
                · have : (hash.getD (Probing.probe hash.length idx probe)
                      {}).value.isNil = false := by
                    simpa [nodeAt] using hnil
                  simp only [Option.isNone_none, this, Bool.and_false,
                    Bool.false_eq_true, if_false]
                  intro step hstep
                  rcases Nat.lt_succ_iff_lt_or_eq.mp hstep with hlt | rfl
                  · exact htomb step hlt
                  · exact hnil
      · have hused' : (!(nodeAt hash idx probe).used) = true := by simpa using hused
        simp only [nodeAt] at hused'
        simp only [hused', if_true]
        exact ⟨probe, by omega, rfl, by simpa using hused, hpassed, htomb⟩

end

theorem probeFor_result (L : InternedStrings) (hash : List TableNode)
    (lookup : TValue) :
    ProbeResult hash lookup (hashKey L lookup hash.length)
      (probeFor L hash lookup) :=
  probeLoop_result hash lookup _ hash.length 0 none (by omega)
    (by intro step hstep; omega) (by intro step hstep; omega)

end Table

end Luatier
