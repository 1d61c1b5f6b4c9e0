import Mathlib.Data.List.GetD
import Luatier.Gc.Sweep
import Luatier.Runtime.TableHistory

/-!
# A table whose weak entries were cleared

Clearing turns values into nil and nodes into tombstones.  No key moves, and no
search that ended at an unused slot goes on for longer.
-/

namespace Luatier

namespace Table

variable {L : InternedStrings} {t : Table} (dead : TValue → Bool) (mask : UInt8)

def clearValue (mode : UInt8) (v : TValue) : TValue :=
  if mode &&& 2 != 0 && dead v then .nil else v

def clearNode (mode : UInt8) (n : TableNode) : TableNode :=
  if !n.used then n
  else if mode &&& 1 != 0 && dead n.key then { n with key := .nil, value := .nil }
  else { n with value := clearValue dead mode n.value }

theorem clearValue_eq (mode : UInt8) (v : TValue) :
    clearValue dead mode v = .nil ∨ clearValue dead mode v = v := by
  unfold clearValue
  split
  · exact Or.inl rfl
  · exact Or.inr rfl

theorem array_clearWeakEntries (t : Table) : (t.clearWeakEntries dead mask).array =
    t.array.map (clearValue dead (t.weakMode &&& mask)) := rfl

theorem hash_clearWeakEntries (t : Table) : (t.clearWeakEntries dead mask).hash =
    t.hash.map (clearNode dead (t.weakMode &&& mask)) := rfl

theorem clearNode_used (mode : UInt8) (n : TableNode) :
    (clearNode dead mode n).used = n.used := by
  unfold clearNode
  split
  · rfl
  · split <;> rfl

theorem clearNode_cases (mode : UInt8) (n : TableNode) :
    ((clearNode dead mode n).key = n.key ∧
        ((clearNode dead mode n).value = .nil ∨ (clearNode dead mode n).value = n.value)) ∨
      (dead n.key = true ∧
        (clearNode dead mode n).key = .nil ∧ (clearNode dead mode n).value = .nil) := by
  unfold clearNode
  split
  · exact Or.inl ⟨rfl, Or.inr rfl⟩
  · split
    · rename_i hkey
      rw [Bool.and_eq_true] at hkey
      exact Or.inr ⟨hkey.2, rfl, rfl⟩
    · exact Or.inl ⟨rfl, clearValue_eq dead mode n.value⟩

theorem node_clearWeakEntries (i : Nat) : (t.clearWeakEntries dead mask).node i =
    clearNode dead (t.weakMode &&& mask) (t.node i) := by
  have hdefault : clearNode dead (t.weakMode &&& mask) {} = {} := rfl
  simp only [node, hash_clearWeakEntries]
  rw [← hdefault, List.getD_map, hdefault]

theorem slotView_clear_key {i : Nat} {k : TValue}
    (h : (t.clearWeakEntries dead mask).slotView i = .key k) : t.slotView i = .key k := by
  rw [slotView_eq_key, node_clearWeakEntries, clearNode_used] at h
  obtain ⟨hused, hkey, hne⟩ := h
  rcases clearNode_cases dead (t.weakMode &&& mask) (t.node i) with ⟨hsame, -⟩ | ⟨-, hnil, -⟩
  · exact slotView_eq_key.mpr ⟨hused, hsame.symm.trans hkey, hne⟩
  · exact absurd (hkey.symm.trans hnil) hne

theorem slotView_clear_free {i : Nat}
    (h : (t.clearWeakEntries dead mask).slotView i = .free) : t.slotView i = .free := by
  rw [slotView_eq_free, node_clearWeakEntries, clearNode_used] at h
  exact slotView_eq_free.mpr h

theorem slotView_clear_of_live {i : Nat} {k : TValue} (h : t.slotView i = .key k)
    (hk : dead k = false) : (t.clearWeakEntries dead mask).slotView i = .key k := by
  obtain ⟨hused, hkey, hne⟩ := slotView_eq_key.mp h
  rw [slotView_eq_key, node_clearWeakEntries, clearNode_used]
  rcases clearNode_cases dead (t.weakMode &&& mask) (t.node i) with ⟨hsame, -⟩ | ⟨hdead, -⟩
  · exact ⟨hused, hsame.trans hkey, hne⟩
  · rw [hkey, hk] at hdead
    exact nomatch hdead

theorem arrayIndex?_clearWeakEntries :
    (t.clearWeakEntries dead mask).arrayIndex? = t.arrayIndex? := by
  funext i
  simp only [arrayIndex?, array_clearWeakEntries, List.length_map]

theorem Wf.clearWeakEntries (wf : t.Wf L) : (t.clearWeakEntries dead mask).Wf L := by
  have hlen : (t.clearWeakEntries dead mask).hash.length = t.hash.length := by
    rw [hash_clearWeakEntries, List.length_map]
  have hhome : (t.clearWeakEntries dead mask).home L = t.home L := by
    funext k
    simp only [home, hlen]
  refine ⟨hlen ▸ wf.hash_pos, ?_, ?_, ?_, ?_, ?_⟩
  · rw [array_clearWeakEntries, List.length_map]
    exact wf.array_lt
  · rw [hlen, hhome]
    exact wf.probed.kill (slotView_clear_key dead mask) (slotView_clear_free dead mask)
  · intro i k hi hk
    obtain ⟨hcanon, hin⟩ := wf.keys (hlen ▸ hi) (slotView_clear_key dead mask hk)
    refine ⟨hcanon, fun n hn => ?_⟩
    rw [arrayIndex?_clearWeakEntries]
    exact hin n hn
  · intro i hkey
    rw [node_clearWeakEntries] at hkey ⊢
    rcases clearNode_cases dead (t.weakMode &&& mask) (t.node i) with
      ⟨hsame, hvalue⟩ | ⟨-, -, hvalue⟩
    · have hold := wf.nil_value i (hsame.symm.trans hkey)
      rcases hvalue with hvalue | hvalue
      · exact hvalue
      · rw [hvalue, hold]
    · exact hvalue
  · intro i hused
    rw [node_clearWeakEntries, clearNode_used] at hused
    have hkey := wf.unused i hused
    rw [node_clearWeakEntries]
    rcases clearNode_cases dead (t.weakMode &&& mask) (t.node i) with ⟨hsame, -⟩ | ⟨-, hnil, -⟩
    · exact hsame.trans hkey
    · exact hnil

theorem Wf.get_clearWeakEntries (wf : t.Wf L) {k : TValue} (hk : ValidKey k) :
    (t.clearWeakEntries dead mask).get L k = .nil ∨
      (t.clearWeakEntries dead mask).get L k = t.get L k := by
  have wf' := wf.clearWeakEntries dead mask
  have hcanon := canonKey_canonical hk
  rw [← get_canonKey k (t := t), ← get_canonKey k (t := t.clearWeakEntries dead mask)]
  cases harr : (keyAsInteger (canonKey k)).bind t.arrayIndex? with
  | some j =>
      have harr' : (keyAsInteger (canonKey k)).bind
          (t.clearWeakEntries dead mask).arrayIndex? = some j := by
        rwa [arrayIndex?_clearWeakEntries]
      have hnil : clearValue dead (t.weakMode &&& mask) .nil = .nil := by
        rcases clearValue_eq dead (t.weakMode &&& mask) .nil with h | h <;> exact h
      simp only [get, harr, harr', array_clearWeakEntries]
      rw [← hnil, List.getD_map, hnil]
      exact clearValue_eq dead (t.weakMode &&& mask) _
  | none =>
      have harr' : (keyAsInteger (canonKey k)).bind
          (t.clearWeakEntries dead mask).arrayIndex? = none := by
        rwa [arrayIndex?_clearWeakEntries]
      by_cases hpres : ∃ i < (t.clearWeakEntries dead mask).hash.length,
          (t.clearWeakEntries dead mask).slotView i = .key (canonKey k)
      · obtain ⟨i, hi, hkey⟩ := hpres
        have hold := slotView_clear_key dead mask hkey
        have hi' : i < t.hash.length := by
          rwa [hash_clearWeakEntries, List.length_map] at hi
        rw [wf'.get_present hi hkey, wf.get_present hi' hold, node_clearWeakEntries]
        rcases clearNode_cases dead (t.weakMode &&& mask) (t.node i) with
          ⟨-, hvalue⟩ | ⟨-, -, hvalue⟩
        · exact hvalue
        · exact Or.inl hvalue
      · exact Or.inl (wf'.get_absent hcanon harr' fun i hi h => hpres ⟨i, hi, h⟩)

theorem clearNode_value_of_live {mode : UInt8} {n : TableNode} (hused : n.used = true)
    (hkey : dead n.key = false) :
    (clearNode dead mode n).value = clearValue dead mode n.value := by
  simp [clearNode, hused, hkey]

theorem Wf.get_clearWeakEntries_of_live (wf : t.Wf L) {k : TValue} (hk : ValidKey k)
    (hlive : dead (canonKey k) = false) :
    (t.clearWeakEntries dead mask).get L k =
      clearValue dead (t.weakMode &&& mask) (t.get L k) := by
  have wf' := wf.clearWeakEntries dead mask
  have hcanon := canonKey_canonical hk
  have hnil : clearValue dead (t.weakMode &&& mask) .nil = .nil := by
    rcases clearValue_eq dead (t.weakMode &&& mask) .nil with h | h <;> exact h
  rw [← get_canonKey k (t := t), ← get_canonKey k (t := t.clearWeakEntries dead mask)]
  cases harr : (keyAsInteger (canonKey k)).bind t.arrayIndex? with
  | some j =>
      have harr' : (keyAsInteger (canonKey k)).bind
          (t.clearWeakEntries dead mask).arrayIndex? = some j := by
        rwa [arrayIndex?_clearWeakEntries]
      simp only [get, harr, harr', array_clearWeakEntries]
      rw [← hnil, List.getD_map, hnil]
  | none =>
      have harr' : (keyAsInteger (canonKey k)).bind
          (t.clearWeakEntries dead mask).arrayIndex? = none := by
        rwa [arrayIndex?_clearWeakEntries]
      have hlen : (t.clearWeakEntries dead mask).hash.length = t.hash.length := by
        rw [hash_clearWeakEntries, List.length_map]
      by_cases hpres : ∃ i < t.hash.length, t.slotView i = .key (canonKey k)
      · obtain ⟨i, hi, hkey⟩ := hpres
        have hkey' := slotView_clear_of_live dead mask hkey hlive
        obtain ⟨hused, hnode, -⟩ := slotView_eq_key.mp hkey
        rw [wf'.get_present (hlen ▸ hi) hkey', wf.get_present hi hkey,
          node_clearWeakEntries]
        exact clearNode_value_of_live dead hused (hnode ▸ hlive)
      · rw [wf.get_absent hcanon harr fun i hi h => hpres ⟨i, hi, h⟩, hnil]
        exact wf'.get_absent hcanon harr' fun i hi h =>
          hpres ⟨i, hlen ▸ hi, slotView_clear_key dead mask h⟩

/-! ## Reachable tables -/

/-- Everything that writes to a table. -/
inductive Mutation (L : InternedStrings) : Table → Table → Prop
  | set {t : Table} {key value : TValue} {r : Stored} :
      Table.set L 3 t key value = .ok r → Mutation L t r.table
  | setInt {t : Table} {i : Int64} {value : TValue} {r : Stored} :
      Table.setInt L 4 t i value = .ok r → Mutation L t r.table
  | clearWeakEntries {t : Table} (dead : TValue → Bool) (mask : UInt8) :
      Mutation L t (t.clearWeakEntries dead mask)
  | header {t : Table} (metatable : Option Addr) (optFlags : UInt32) (weakMode : UInt8) :
      Mutation L t { t with metatable, optFlags, weakMode }

def Reachable (L : InternedStrings) (t : Table) : Prop :=
  ∃ arrayHint hashHint t₀, tableNew arrayHint hashHint = .ok t₀ ∧
    Relation.ReflTransGen (Mutation L) t₀ t

theorem Wf.mutation {t' : Table} (wf : t.Wf L) (h : Mutation L t t') : t'.Wf L := by
  cases h with
  | set hr =>
      rename_i key value r
      obtain ⟨r', hr', hok⟩ := set_ok wf (validKey_of_set hr) value (Nat.le_refl 3)
      obtain rfl : r' = r := Except.ok.inj (hr'.symm.trans hr)
      exact hok.wf
  | setInt hr =>
      rename_i i value r
      obtain ⟨r', hr', hok⟩ := setInt_ok wf i value (Nat.le_refl 4)
      obtain rfl : r' = r := Except.ok.inj (hr'.symm.trans hr)
      exact hok.wf
  | clearWeakEntries dead mask => exact wf.clearWeakEntries dead mask
  | header metatable optFlags weakMode => exact wf.congr rfl rfl

theorem Reachable.wf (h : t.Reachable L) : t.Wf L := by
  obtain ⟨arrayHint, hashHint, t₀, hnew, hrun⟩ := h
  exact Machine.invariant_of_path (Wf L) (fun wf hstep => wf.mutation hstep)
    (tableNew_represents hnew).wf hrun

end Table

end Luatier
