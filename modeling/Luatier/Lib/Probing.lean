import Mathlib.Data.Nat.ModEq
import Mathlib.Logic.Function.Basic

/-!
# Linear probing

Slots of an open-addressed table are visited from a home position, one after
the other and around the end.  A slot is free until it is first written, holds
a key, or is dead.  A free slot ends every search, so the invariant says that
nothing free stands between the home of a key and the slot that holds it.
-/

namespace Probing

variable {K : Type*}

def probe (size start step : Nat) : Nat := (start + step) % size

theorem probe_lt {size : Nat} (hsize : 0 < size) (start step : Nat) :
    probe size start step < size :=
  Nat.mod_lt _ hsize

theorem probe_inj {size start p q : Nat} (hp : p < size) (hq : q < size)
    (h : probe size start p = probe size start q) : p = q := by
  have hmod : (start + p) ≡ (start + q) [MOD size] := h
  exact Nat.ModEq.eq_of_lt_of_lt (Nat.ModEq.add_left_cancel' start hmod) hp hq

theorem exists_probe {size : Nat} (start : Nat) {slot : Nat}
    (hslot : slot < size) : ∃ step < size, probe size start step = slot := by
  have hstart : start % size < size := Nat.mod_lt _ (by omega)
  rcases Nat.le_total (start % size) slot with hle | hge
  · refine ⟨slot - start % size, by omega, ?_⟩
    rw [probe, Nat.add_mod, Nat.mod_eq_of_lt (a := slot - start % size) (by omega),
      Nat.add_sub_cancel' hle, Nat.mod_eq_of_lt hslot]
  · rcases Nat.eq_or_lt_of_le hge with heq | hlt
    · exact ⟨0, by omega, by simp [probe, heq]⟩
    refine ⟨slot + size - start % size, by omega, ?_⟩
    rw [probe, Nat.add_mod,
      Nat.mod_eq_of_lt (a := slot + size - start % size) (by omega),
      show start % size + (slot + size - start % size) = slot + size by omega,
      Nat.add_mod_right, Nat.mod_eq_of_lt hslot]

inductive Slot (K : Type*) where
  | free
  | dead
  | key (k : K)
  deriving DecidableEq

def FirstStep (size start : Nat) (test : Nat → Prop) (step : Nat) : Prop :=
  step < size ∧ test (probe size start step) ∧
    ∀ earlier < step, ¬ test (probe size start earlier)

theorem FirstStep.unique {size start p q : Nat} {test : Nat → Prop}
    (hp : FirstStep size start test p) (hq : FirstStep size start test q) :
    p = q := by
  rcases Nat.lt_trichotomy p q with hlt | heq | hgt
  · exact absurd hp.2.1 (hq.2.2 p hlt)
  · exact heq
  · exact absurd hq.2.1 (hp.2.2 q hgt)

/--
The probing invariant: a key is held by one slot only, and the probe sequence
from its home meets no free slot before that one.
-/
structure Probed (size : Nat) (home : K → Nat) (slots : Nat → Slot K) : Prop where
  unique : ∀ {i j k}, i < size → j < size →
    slots i = .key k → slots j = .key k → i = j
  path : ∀ {i k}, i < size → slots i = .key k →
    ∃ step < size, probe size (home k) step = i ∧
      ∀ earlier < step, slots (probe size (home k) earlier) ≠ .free

theorem Probed.empty (size : Nat) (home : K → Nat) :
    Probed size home fun _ => .free where
  unique := by
    intro i j k _ _ hi
    contradiction
  path := by
    intro i k _ hi
    contradiction

section

variable {size : Nat} {home : K → Nat} {slots : Nat → Slot K}

theorem Probed.find_present (inv : Probed size home slots) {i : Nat} {k : K}
    (hi : i < size) (hkey : slots i = .key k) :
    ∃ step, probe size (home k) step = i ∧
      FirstStep size (home k)
        (fun j => slots j = .free ∨ slots j = .key k) step := by
  obtain ⟨step, hstep, hprobe, hpath⟩ := inv.path hi hkey
  refine ⟨step, hprobe, hstep, Or.inr (by rw [hprobe]; exact hkey), ?_⟩
  rintro earlier hlt (hfree | hsame)
  · exact hpath earlier hlt hfree
  · have hsize : 0 < size := by omega
    have heq := inv.unique (probe_lt hsize _ _) hi hsame hkey
    have := probe_inj (by omega) hstep (heq.trans hprobe.symm)
    omega

/--
Writing an absent key at a slot that is met on its probe sequence before any
free slot keeps the invariant, whatever the slot held.
-/
theorem Probed.insert (inv : Probed size home slots) {step : Nat} {k : K}
    (hstep : step < size) (habsent : ∀ i < size, slots i ≠ .key k)
    (hpath : ∀ earlier < step, slots (probe size (home k) earlier) ≠ .free) :
    Probed size home
      (Function.update slots (probe size (home k) step) (.key k)) := by
  have hfresh : ∀ {i k'}, i < size →
      Function.update slots (probe size (home k) step) (.key k) i = .key k' →
      (i = probe size (home k) step ∧ k' = k) ∨
        (i ≠ probe size (home k) step ∧ k' ≠ k ∧ slots i = .key k') := by
    intro i k' hi hkey
    by_cases heq : i = probe size (home k) step
    · subst heq
      rw [Function.update_self, Slot.key.injEq] at hkey
      exact Or.inl ⟨rfl, hkey.symm⟩
    · rw [Function.update_of_ne heq] at hkey
      refine Or.inr ⟨heq, ?_, hkey⟩
      rintro rfl
      exact habsent i hi hkey
  have hnotFree : ∀ j, slots j ≠ .free →
      Function.update slots (probe size (home k) step) (.key k) j ≠ .free := by
    intro j hj
    by_cases heq : j = probe size (home k) step
    · subst heq
      simp
    · rwa [Function.update_of_ne heq]
  constructor
  · intro i j k' hi hj hik hjk
    rcases hfresh hi hik with ⟨rfl, rfl⟩ | ⟨-, hne, hold⟩
    · rcases hfresh hj hjk with ⟨rfl, -⟩ | ⟨-, hne, -⟩
      · rfl
      · exact absurd rfl hne
    · rcases hfresh hj hjk with ⟨-, heq⟩ | ⟨-, -, hold'⟩
      · exact absurd heq hne
      · exact inv.unique hi hj hold hold'
  · intro i k' hi hik
    rcases hfresh hi hik with ⟨rfl, rfl⟩ | ⟨-, -, hold⟩
    · exact ⟨step, hstep, rfl, fun earlier hlt => hnotFree _ (hpath earlier hlt)⟩
    · obtain ⟨s, hs, hprobe, hold⟩ := inv.path hi hold
      exact ⟨s, hs, hprobe, fun earlier hlt => hnotFree _ (hold earlier hlt)⟩

theorem Probed.kill (inv : Probed size home slots) {slots' : Nat → Slot K}
    (hkeep : ∀ {i k}, slots' i = .key k → slots i = .key k)
    (hfree : ∀ {i}, slots' i = .free → slots i = .free) : Probed size home slots' := by
  constructor
  · intro i j k hi hj hk hk'
    exact inv.unique hi hj (hkeep hk) (hkeep hk')
  · intro i k hi hk
    obtain ⟨s, hs, hprobe, hpath⟩ := inv.path hi (hkeep hk)
    exact ⟨s, hs, hprobe, fun earlier hlt hf => hpath earlier hlt (hfree hf)⟩

end

end Probing
