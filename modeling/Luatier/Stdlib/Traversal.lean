import Luatier.Stdlib.Next

/-!
# Tables that change while they are traversed

Between two calls of `next` fields may be reassigned or cleared, and the
collector may clear weak entries.  None of this moves a key.
-/

namespace Luatier

namespace Table

variable {L : InternedStrings} {t : Table}

/-- What a traversal that has come to `key` needs of a change. -/
structure Kept (L : InternedStrings) (key : TValue) (t t' : Table) : Prop where
  wf : t'.Wf L
  stays : ∀ {p}, t.At p key → t'.At p key
  places : ∀ {p k}, t.At p k → t'.get L k = .nil ∨ t'.At p k
  absent : ∀ {k}, ValidKey k → t.get L k = .nil → t'.get L k = .nil

theorem At.mono {t' : Table} (harray : t.array.length ≤ t'.array.length)
    (hhash : t'.hash.length = t.hash.length)
    (hview : ∀ {i k}, t.slotView i = .key k → t'.slotView i = .key k) {p : Nat} {k : TValue}
    (h : t.At p k) : t'.At p k := by
  rcases h with ⟨hp, hk⟩ | ⟨i, hi, hp, hkey⟩
  · exact Or.inl ⟨Nat.lt_of_lt_of_le hp harray, hk⟩
  · exact Or.inr ⟨i, hhash ▸ hi, hp, hview hkey⟩

theorem setArray?_at {i : Int64} {value : TValue} {r : Stored}
    (h : t.setArray? i value = some r) {p : Nat} {k : TValue} (hat : t.At p k) :
    r.table.At p k := by
  unfold setArray? at h
  split at h
  · cases h
    refine At.mono ?_ ?_ ?_ hat
    · exact Nat.le_of_eq (List.length_set ..).symm
    · rfl
    · exact fun hview => hview
  · split at h
    · cases h
      refine At.mono ?_ ?_ ?_ hat
      · rw [List.length_set, List.length_append]
        exact Nat.le_add_right _ _
      · rfl
      · exact fun hview => hview
    · exact nomatch h

theorem setHash?_at (wf : t.Wf L) {k value : TValue} (hk : Canonical k)
    (hex : value = .nil ∨ ∃ i < t.hash.length, t.slotView i = .key k) :
    ∃ r, t.setHash? L k value = some r ∧ ∀ {p k'}, t.At p k' → r.table.At p k' := by
  have hsearch := wf.search hk
  unfold setHash?
  cases hend : probeFor L t.hash k with
  | unused slot firstTomb =>
      rw [hend] at hsearch
      obtain ⟨-, -, -, -, -, habsent, -⟩ := hsearch
      rcases hex with rfl | ⟨i, hi, hkey⟩
      · exact ⟨_, rfl, fun hat => hat⟩
      · exact absurd hkey (habsent i hi)
  | found slot firstTomb =>
      rw [hend] at hsearch
      obtain ⟨hslot, hkey⟩ := hsearch
      refine ⟨_, rfl, fun hat => At.mono ?_ ?_ ?_ hat⟩
      · exact Nat.le_refl _
      · exact List.length_set ..
      intro i k' hview
      obtain ⟨hused, hnode, hne⟩ := slotView_eq_key.mp hview
      refine slotView_eq_key.mpr ?_
      have hset := node_setNode hslot { t.node slot with value } i
      simp only [setNode, node] at hset hused hnode ⊢
      rw [hset]
      by_cases hi : i = slot
      · subst hi
        rw [if_pos rfl]
        exact ⟨hused, hnode, hne⟩
      · rw [if_neg hi]
        exact ⟨hused, hnode, hne⟩
  | exhausted firstTomb =>
      rw [hend] at hsearch
      rcases hex with rfl | ⟨i, hi, hkey⟩
      · exact ⟨_, rfl, fun hat => hat⟩
      · exact absurd hkey (hsearch.1 i hi).2

theorem set_at (wf : t.Wf L) {key value : TValue} {r : Stored}
    (hex : value = .nil ∨ t.get L key ≠ .nil) (h : set L 3 t key value = .ok r)
    {p : Nat} {k : TValue} (hat : t.At p k) : r.table.At p k := by
  have hvalid := validKey_of_set h
  have hnil : key.isNil = false := by simpa using hvalid.1
  rw [set] at h
  simp only [hnil, hvalid.2, Bool.false_eq_true, if_false] at h
  generalize ht₁ : (if metamethodLike L key = true then t.clearTmCache else t) = t₁ at h
  have hsame : t₁.array = t.array ∧ t₁.hash = t.hash := by
    rw [← ht₁]
    split <;> exact ⟨rfl, rfl⟩
  have wf₁ : t₁.Wf L := wf.congr hsame.1 hsame.2
  have hat₁ : t₁.At p k := by
    have hnode : t₁.node = t.node := by
      funext i
      rw [node, node, hsame.2]
    refine At.mono (by rw [hsame.1]) (by rw [hsame.2]) (fun {i k} hview => ?_) hat
    rw [slotView_eq_key] at hview ⊢
    rwa [hnode]
  split at h
  · rw [setInt] at h
    split at h
    · rename_i r' hr'
      cases h
      exact setArray?_at hr' hat₁
    · rename_i i hsmall _ hnone
      -- a key from 1 to 64 always goes to the array part
      have hle := (Option.filter_eq_some_iff.mp hsmall).2
      unfold setArray? at hnone
      split at hnone
      · cases hnone
      · rw [if_pos (by simpa using hle)] at hnone
        cases hnone
  · split at h
    · cases h
      refine At.mono ?_ ?_ ?_ hat₁
      · exact Nat.le_of_eq (List.length_set ..).symm
      · rfl
      · exact fun hview => hview
    · rename_i harray
      have hhash : t₁.hash.isEmpty = false := by
        have hpos := wf₁.hash_pos
        cases hh : t₁.hash with
        | nil => rw [hh] at hpos; exact absurd hpos (Nat.lt_irrefl 0)
        | cons n rest => rfl
      have hlookup : ((keyAsInteger key).map TValue.integer).getD key = canonKey key := rfl
      simp only [hhash, Bool.false_eq_true, if_false, hlookup] at h
      have hpresent : value = .nil ∨
          ∃ i < t₁.hash.length, t₁.slotView i = .key (canonKey key) := by
        rcases hex with hvalue | hget
        · exact Or.inl hvalue
        · right
          by_contra hno
          refine hget ?_
          rw [← get_congr hsame.1 hsame.2, ← get_canonKey]
          refine wf₁.get_absent (canonKey_canonical hvalid) ?_ fun i hi hi' => hno ⟨i, hi, hi'⟩
          rwa [keyAsInteger_canonKey]
      obtain ⟨r', hr', hkeep⟩ := setHash?_at wf₁ (canonKey_canonical hvalid) hpresent
      rw [hr'] at h
      cases h
      exact hkeep hat₁

theorem setInt_at (wf : t.Wf L) {i : Int64} {value : TValue} {r : Stored}
    (hex : value = .nil ∨ t.get L (.integer i) ≠ .nil) (h : setInt L 4 t i value = .ok r)
    {p : Nat} {k : TValue} (hat : t.At p k) : r.table.At p k := by
  rw [setInt] at h
  split at h
  · rename_i r' hr'
    cases h
    exact setArray?_at hr' hat
  · exact set_at wf hex h hat

theorem kept_of_store {key value current : TValue} {r : Stored} (hok : StoreOk L t key value r)
    (hex : value = .nil ∨ t.get L key ≠ .nil)
    (hat : ∀ {p k}, t.At p k → r.table.At p k) : Kept L current t r.table := by
  refine ⟨hok.wf, hat, fun h => Or.inr (hat h), fun {k} hk hnil => ?_⟩
  rw [hok.get_eq k hk]
  split
  · rename_i hsame
    rcases hex with hvalue | hget
    · exact hvalue
    · rw [← get_canonKey, ← hsame, get_canonKey] at hget
      exact absurd hnil hget
  · exact hnil

theorem kept_of_set (wf : t.Wf L) {key value current : TValue} {r : Stored}
    (hex : value = .nil ∨ t.get L key ≠ .nil) (h : set L 3 t key value = .ok r) :
    Kept L current t r.table := by
  obtain ⟨r', hr', hok⟩ := set_ok wf (validKey_of_set h) value (Nat.le_refl 3)
  obtain rfl : r' = r := Except.ok.inj (hr'.symm.trans h)
  exact kept_of_store hok hex fun hat => set_at wf hex h hat

theorem kept_of_setInt (wf : t.Wf L) {i : Int64} {value current : TValue} {r : Stored}
    (hex : value = .nil ∨ t.get L (.integer i) ≠ .nil) (h : setInt L 4 t i value = .ok r) :
    Kept L current t r.table := by
  obtain ⟨r', hr', hok⟩ := setInt_ok wf i value (Nat.le_refl 4)
  obtain rfl : r' = r := Except.ok.inj (hr'.symm.trans h)
  exact kept_of_store hok hex fun hat => setInt_at wf hex h hat

theorem kept_of_clear (wf : t.Wf L) (dead : TValue → Bool) (mask : UInt8) {key : TValue}
    (hkey : dead key = false) : Kept L key t (t.clearWeakEntries dead mask) := by
  have wf' := wf.clearWeakEntries dead mask
  have harray : (t.clearWeakEntries dead mask).array.length = t.array.length := by
    rw [array_clearWeakEntries, List.length_map]
  have hhash : (t.clearWeakEntries dead mask).hash.length = t.hash.length := by
    rw [hash_clearWeakEntries, List.length_map]
  refine ⟨wf', ?_, ?_, fun {k} hk hnil => ?_⟩
  · rintro p (⟨hp, hk⟩ | ⟨i, hi, hp, hview⟩)
    · exact Or.inl ⟨harray ▸ hp, hk⟩
    · exact Or.inr ⟨i, hhash ▸ hi, hp, slotView_clear_of_live dead mask hview hkey⟩
  · rintro p k (⟨hp, hk⟩ | ⟨i, hi, hp, hview⟩)
    · exact Or.inr (Or.inl ⟨harray ▸ hp, hk⟩)
    · by_cases hstill : (t.clearWeakEntries dead mask).slotView i = .key k
      · exact Or.inr (Or.inr ⟨i, hhash ▸ hi, hp, hstill⟩)
      · obtain ⟨hcanon, hin⟩ := wf.keys hi hview
        left
        refine wf'.get_absent hcanon ?_ fun j hj hj' => hstill ?_
        · rw [arrayIndex?_clearWeakEntries]
          cases hn : keyAsInteger k with
          | none => rfl
          | some n => exact (hin n hn).1
        · rwa [← wf.probed.unique (hhash ▸ hj) hi (slotView_clear_key dead mask hj') hview]
  · rcases wf.get_clearWeakEntries dead mask hk with h | h
    · exact h
    · rw [h, hnil]

end Table

/-! ## Runs -/

/-- A program that walks a table: the key it has come to, and all those before. -/
structure Traversal where
  table : Table
  key : TValue := .nil
  returned : List TValue := []
  finished : Bool := false

namespace Traversal

open Table

/-- A call of `next`, or a change between two calls that adds no key. -/
inductive Step (L : InternedStrings) : Traversal → Traversal → Prop
  | next {s : Traversal} {k v : TValue} : s.finished = false →
      s.table.baseNext s.key = .ok (some (k, v)) →
      Step L s { s with key := k, returned := s.returned ++ [k] }
  | finish {s : Traversal} : s.finished = false → s.table.baseNext s.key = .ok none →
      Step L s { s with finished := true }
  | set {s : Traversal} {key value : TValue} {r : Stored} :
      value = .nil ∨ s.table.get L key ≠ .nil → Table.set L 3 s.table key value = .ok r →
      Step L s { s with table := r.table }
  | setInt {s : Traversal} {i : Int64} {value : TValue} {r : Stored} :
      value = .nil ∨ s.table.get L (.integer i) ≠ .nil →
      Table.setInt L 4 s.table i value = .ok r → Step L s { s with table := r.table }
  | clear {s : Traversal} (dead : TValue → Bool) (mask : UInt8) : dead s.key = false →
      Step L s { s with table := s.table.clearWeakEntries dead mask }

variable {L : InternedStrings} {s s' : Traversal} {t₀ : Table}

theorem Step.cases (h : Step L s s') (wf : s.table.Wf L) :
    (s.finished = false ∧ ∃ k v, s.table.baseNext s.key = .ok (some (k, v)) ∧
        s' = { s with key := k, returned := s.returned ++ [k] }) ∨
      (s.finished = false ∧ s.table.baseNext s.key = .ok none ∧
        s' = { s with finished := true }) ∨
      ∃ t', Kept L s.key s.table t' ∧ s' = { s with table := t' } := by
  cases h with
  | next hfin hnext => exact Or.inl ⟨hfin, _, _, hnext, rfl⟩
  | finish hfin hnext => exact Or.inr (Or.inl ⟨hfin, hnext, rfl⟩)
  | set hex hset => exact Or.inr (Or.inr ⟨_, kept_of_set wf hex hset, rfl⟩)
  | setInt hex hset => exact Or.inr (Or.inr ⟨_, kept_of_setInt wf hex hset, rfl⟩)
  | clear dead mask hdead => exact Or.inr (Or.inr ⟨_, kept_of_clear wf dead mask hdead, rfl⟩)

structure Inv (L : InternedStrings) (t₀ : Table) (s : Traversal) : Prop where
  wf : s.table.Wf L
  absent : ∀ {k}, ValidKey k → t₀.get L k = .nil → s.table.get L k = .nil
  place : ∃ bound, s.table.Behind s.key bound ∧
    ∀ k ∈ s.returned, s.table.get L k = .nil ∨ ∃ p < bound, s.table.At p k
  nodup : s.returned.Nodup
  present : ∀ k ∈ s.returned, Canonical k ∧ t₀.get L k ≠ .nil

theorem Inv.start (wf : t₀.Wf L) : Inv L t₀ ⟨t₀, .nil, [], false⟩ where
  wf := wf
  absent _ h := h
  place := ⟨0, Or.inl ⟨rfl, rfl⟩, fun _ h => nomatch h⟩
  nodup := List.nodup_nil
  present _ h := nomatch h

theorem Inv.answer (h : Inv L t₀ s) {k v : TValue}
    (hnext : s.table.baseNext s.key = .ok (some (k, v))) :
    k ∉ s.returned ∧ s.table.get L k = v ∧ v ≠ .nil := by
  obtain ⟨bound, hbehind, hplaces⟩ := h.place
  obtain ⟨r, hr, hfirst⟩ := baseNext_spec h.wf hbehind
  rw [hnext] at hr
  cases hr
  obtain ⟨p, hp, hat, hget, hne, -⟩ := hfirst
  refine ⟨fun hmem => ?_, hget, hne⟩
  rcases hplaces k hmem with hnil | ⟨p', hp', hat'⟩
  · rw [hget] at hnil
    exact hne hnil
  · have := hat'.place_unique h.wf hat
    omega

theorem Inv.next (h : Inv L t₀ s) {k v : TValue}
    (hnext : s.table.baseNext s.key = .ok (some (k, v))) :
    Inv L t₀ { s with key := k, returned := s.returned ++ [k] } := by
  obtain ⟨hnew, hget, hne⟩ := h.answer hnext
  obtain ⟨bound, hbehind, hplaces⟩ := h.place
  obtain ⟨r, hr, hfirst⟩ := baseNext_spec h.wf hbehind
  rw [hnext] at hr
  cases hr
  obtain ⟨p, hp, hat, -, -, -⟩ := hfirst
  have hcanon := hat.canonical h.wf
  refine ⟨h.wf, h.absent, ⟨p + 1, Or.inr ⟨p, hat, rfl⟩, ?_⟩, ?_, ?_⟩
  · intro k' hk'
    rcases List.mem_append.mp hk' with hold | hk'
    · rcases hplaces k' hold with hnil | ⟨p', hp', hat'⟩
      · exact Or.inl hnil
      · exact Or.inr ⟨p', by omega, hat'⟩
    · rw [List.mem_singleton.mp hk']
      exact Or.inr ⟨p, Nat.lt_succ_self p, hat⟩
  · refine List.nodup_append.mpr ⟨h.nodup, List.nodup_singleton k, ?_⟩
    rintro a ha b hb rfl
    rw [List.mem_singleton.mp hb] at ha
    exact hnew ha
  · intro k' hk'
    rcases List.mem_append.mp hk' with hold | hk'
    · exact h.present k' hold
    · rw [List.mem_singleton.mp hk']
      refine ⟨hcanon, fun hnil => hne ?_⟩
      rw [← hget]
      exact h.absent hcanon.1 hnil

theorem Inv.change (h : Inv L t₀ s) {t' : Table} (hkept : Kept L s.key s.table t') :
    Inv L t₀ { s with table := t' } := by
  obtain ⟨bound, hbehind, hplaces⟩ := h.place
  refine ⟨hkept.wf, fun hk hnil => hkept.absent hk (h.absent hk hnil), ⟨bound, ?_, ?_⟩,
    h.nodup, h.present⟩
  · rcases hbehind with hstart | ⟨p, hat, hp⟩
    · exact Or.inl hstart
    · exact Or.inr ⟨p, hkept.stays hat, hp⟩
  · intro k hk
    rcases hplaces k hk with hnil | ⟨p, hp, hat⟩
    · exact Or.inl (hkept.absent (h.present k hk).1.1 hnil)
    · rcases hkept.places hat with hnil | hat'
      · exact Or.inl hnil
      · exact Or.inr ⟨p, hp, hat'⟩

theorem Inv.step (h : Inv L t₀ s) (hstep : Step L s s') : Inv L t₀ s' := by
  rcases hstep.cases h.wf with ⟨-, k, v, hnext, rfl⟩ | ⟨-, -, rfl⟩ | ⟨t', hkept, rfl⟩
  · exact h.next hnext
  · exact ⟨h.wf, h.absent, h.place, h.nodup, h.present⟩
  · exact h.change hkept

/-- A key that has been there all the time is behind or still ahead. -/
def Covers (k : TValue) (s : Traversal) : Prop :=
  k ∈ s.returned ∨
    (s.finished = false ∧ ∃ bound p, s.table.Behind s.key bound ∧ bound ≤ p ∧ s.table.At p k)

theorem Covers.step {k : TValue} (h : Inv L t₀ s) (hcovers : Covers k s)
    (hlive : s.table.get L k ≠ .nil) (hlive' : s'.table.get L k ≠ .nil)
    (hstep : Step L s s') : Covers k s' := by
  rcases hstep.cases h.wf with ⟨-, k', v, hnext, rfl⟩ | ⟨-, hnext, rfl⟩ | ⟨t', hkept, rfl⟩
  · rcases hcovers with hmem | ⟨hfin, bound, p, hbehind, hp, hat⟩
    · exact Or.inl (List.mem_append_left _ hmem)
    obtain ⟨r, hr, hfirst⟩ := baseNext_spec h.wf hbehind
    rw [hnext] at hr
    cases hr
    obtain ⟨p', hp', hat', -, -, hbefore⟩ := hfirst
    rcases Nat.lt_trichotomy p p' with hlt | rfl | hgt
    · exact absurd (hbefore p k hp hlt hat) hlive
    · rw [hat.key_unique h.wf hat']
      exact Or.inl (List.mem_append_right _ (List.mem_singleton_self k'))
    · exact Or.inr ⟨hfin, p' + 1, p, Or.inr ⟨p', hat', rfl⟩, hgt, hat⟩
  · rcases hcovers with hmem | ⟨-, bound, p, hbehind, hp, hat⟩
    · exact Or.inl hmem
    obtain ⟨r, hr, hfirst⟩ := baseNext_spec h.wf hbehind
    rw [hnext] at hr
    cases hr
    exact absurd (hfirst p k hp hat) hlive
  · rcases hcovers with hmem | ⟨hfin, bound, p, hbehind, hp, hat⟩
    · exact Or.inl hmem
    · refine Or.inr ⟨hfin, bound, p, ?_, hp, ?_⟩
      · rcases hbehind with hstart | ⟨q, hq, hbound⟩
        · exact Or.inl hstart
        · exact Or.inr ⟨q, hkept.stays hq, hbound⟩
      · rcases hkept.places hat with hnil | hat'
        · exact absurd hnil hlive'
        · exact hat'

def placedKeys (t : Table) : List TValue :=
  (List.range t.array.length).map (fun j => .integer (Int64.ofNat (j + 1))) ++
    t.hash.map (·.key)

theorem mem_placedKeys {p : Nat} {k : TValue} (h : t₀.At p k) : k ∈ placedKeys t₀ := by
  rcases h with ⟨hp, rfl⟩ | ⟨i, hi, -, hkey⟩
  · exact List.mem_append_left _ (List.mem_map.mpr ⟨p, List.mem_range.mpr hp, rfl⟩)
  · refine List.mem_append_right _ (List.mem_map.mpr ⟨t₀.node i, ?_, ?_⟩)
    · rw [node_eq_getElem hi]
      exact List.getElem_mem hi
    · exact (slotView_eq_key.mp hkey).2.1

def LiveRun (L : InternedStrings) (k : TValue) : Traversal → Traversal → Prop :=
  Relation.ReflTransGen fun s s' => Step L s s' ∧ s'.table.get L k ≠ .nil

theorem covers_of_liveRun (wf : t₀.Wf L) {k : TValue} (hk : ValidKey k)
    (hlive : t₀.get L k ≠ .nil) (hrun : LiveRun L k ⟨t₀, .nil, [], false⟩ s) :
    Inv L t₀ s ∧ s.table.get L k ≠ .nil ∧ Covers (canonKey k) s := by
  induction hrun with
  | refl =>
      have hcanon : t₀.get L (canonKey k) ≠ .nil := by rwa [get_canonKey]
      obtain ⟨p, hat⟩ := exists_at wf (canonKey_canonical hk) hcanon
      exact ⟨.start wf, hlive, Or.inr ⟨rfl, 0, p, Or.inl ⟨rfl, rfl⟩, Nat.zero_le p, hat⟩⟩
  | tail _ hstep ih =>
      obtain ⟨hinv, hget, hcovers⟩ := ih
      refine ⟨hinv.step hstep.1, hstep.2, hcovers.step hinv ?_ ?_ hstep.1⟩
      · rwa [get_canonKey]
      · rw [get_canonKey]
        exact hstep.2

/--
In every traversal of a table from nil to which no key is added: `next` never
fails; what it returns is there and was not returned before; at most as many
keys are returned as the table had places; and when the traversal has ended,
every key that had a value all the time was returned, and just once.
-/
theorem traversal_visits_once (htable : t₀.Reachable L)
    (hrun : Relation.ReflTransGen (Step L) ⟨t₀, .nil, [], false⟩ s) :
    (∃ r, s.table.baseNext s.key = .ok r ∧ ∀ k v, r = some (k, v) →
        k ∉ s.returned ∧ s.table.get L k = v ∧ v ≠ .nil) ∧
      s.returned.length ≤ t₀.array.length + t₀.hash.length ∧
      ∀ k, ValidKey k → t₀.get L k ≠ .nil → LiveRun L k ⟨t₀, .nil, [], false⟩ s →
        s.finished = true → s.returned.count (canonKey k) = 1 := by
  have hinv := Machine.invariant_of_path (Inv L t₀) (fun h hstep => h.step hstep)
    (.start htable.wf) hrun
  refine ⟨?_, ?_, fun k hk hlive hall hfin => ?_⟩
  · obtain ⟨bound, hbehind, -⟩ := hinv.place
    obtain ⟨r, hr, -⟩ := baseNext_spec hinv.wf hbehind
    refine ⟨r, hr, fun k v hkv => ?_⟩
    rw [hkv] at hr
    exact hinv.answer hr
  · have hsub : s.returned ⊆ placedKeys t₀ := by
      intro k hk
      obtain ⟨hcanon, hget⟩ := hinv.present k hk
      obtain ⟨p, hat⟩ := exists_at htable.wf hcanon hget
      exact mem_placedKeys hat
    have hle := (hinv.nodup.subperm hsub).length_le
    simpa only [placedKeys, List.length_append, List.length_map, List.length_range] using hle
  · obtain ⟨-, -, hcovers⟩ := covers_of_liveRun htable.wf hk hlive hall
    rcases hcovers with hmem | ⟨hopen, -⟩
    · exact List.count_eq_one_of_mem hinv.nodup hmem
    · rw [hfin] at hopen
      exact nomatch hopen

def noStrings : InternedStrings := ⟨fun _ => [], fun _ => 0⟩

/-- A table with two elements, and the same after the first was cleared. -/
def pair : Table where
  array := [.boolean true, .boolean false]
  hash := List.replicate 8 {}
  structureVersion := 3

def pairCleared : Table := { pair with array := [.nil, .boolean false] }

theorem pair_reachable : pair.Reachable noStrings := by
  have hfirst : Mutation noStrings { hash := List.replicate 8 {} }
      { array := [.boolean true], hash := List.replicate 8 {}, structureVersion := 2 } :=
    @Mutation.setInt _ _ 1 (.boolean true) ⟨_, [.boolean true]⟩ rfl
  have hsecond : Mutation noStrings
      { array := [.boolean true], hash := List.replicate 8 {}, structureVersion := 2 } pair :=
    @Mutation.setInt _ _ 2 (.boolean false) ⟨pair, [.boolean false]⟩ rfl
  exact ⟨0, 8, _, rfl, (Relation.ReflTransGen.single hfirst).tail hsecond⟩

/-- The first element is cleared as soon as it was returned. -/
theorem pair_visited : (∃ r, pairCleared.baseNext (.integer 2) = .ok r ∧
      ∀ k v, r = some (k, v) → k ∉ [TValue.integer 1, .integer 2] ∧
        pairCleared.get noStrings k = v ∧ v ≠ .nil) ∧
    [TValue.integer 1, .integer 2].count (canonKey (.integer 2)) = 1 := by
  have hnext : Step noStrings ⟨pair, .nil, [], false⟩
      ⟨pair, .integer 1, [.integer 1], false⟩ := .next rfl rfl
  have hset : Step noStrings ⟨pair, .integer 1, [.integer 1], false⟩
      ⟨pairCleared, .integer 1, [.integer 1], false⟩ :=
    @Step.setInt _ _ 1 .nil ⟨pairCleared, [.nil]⟩ (Or.inl rfl) rfl
  have hnext' : Step noStrings ⟨pairCleared, .integer 1, [.integer 1], false⟩
      ⟨pairCleared, .integer 2, [.integer 1, .integer 2], false⟩ := .next rfl rfl
  have hfinish : Step noStrings ⟨pairCleared, .integer 2, [.integer 1, .integer 2], false⟩
      ⟨pairCleared, .integer 2, [.integer 1, .integer 2], true⟩ := .finish rfl rfl
  have hthere : pair.get noStrings (.integer 2) ≠ .nil := fun h => nomatch h
  have hstill : pairCleared.get noStrings (.integer 2) ≠ .nil := fun h => nomatch h
  have hlive : LiveRun noStrings (.integer 2) ⟨pair, .nil, [], false⟩
      ⟨pairCleared, .integer 2, [.integer 1, .integer 2], true⟩ :=
    (((Relation.ReflTransGen.single ⟨hnext, hthere⟩).tail ⟨hset, hstill⟩).tail
      ⟨hnext', hstill⟩).tail ⟨hfinish, hstill⟩
  obtain ⟨hok, -, honce⟩ := traversal_visits_once pair_reachable
    ((((Relation.ReflTransGen.single hnext).tail hset).tail hnext').tail hfinish)
  exact ⟨hok, honce (.integer 2) (canonical_integer 2).1 hthere hlive rfl⟩

end Traversal

end Luatier
