import Luatier.Lib.LinkedList
import Luatier.Lib.Machine
import Luatier.Runtime.State

/-!
# The intern table

The strings of a bucket are linked through `hnext`.  The table keeps its array
of buckets a power of two, and doubles it when there are as many strings as
buckets.
-/

namespace Luatier

open LinkedList

/-- The table, and the strings in memory with their chain pointers. -/
structure StringTable where
  hash : List (Option Addr) := []
  nuse : Nat := 0
  str : Addr → Option LjString := fun _ => none
  hnext : Addr → Option Addr := fun _ => none

namespace StringTable

variable (S : StringTable)

def slotOf (size : Nat) (h : UInt32) : Nat := h.toNat &&& (size - 1)

def hashOf (a : Addr) : UInt32 := ((S.str a).map (·.hash)).getD 0

def rounds : Nat := S.nuse + 1

def doubleTo (newSize : Nat) : Nat → Nat → Nat
  | 0, n => n
  | k + 1, n => if n < newSize then doubleTo newSize k (n <<< 1) else n

def bucketCount (newSize : Nat) : Nat :=
  let newSize := if newSize < 32 then 32 else newSize
  doubleTo newSize newSize 1

def resize (newSize : Nat) : Option StringTable :=
  let n := bucketCount newSize
  (scatterAll (fun a => slotOf n (S.hashOf a)) S.rounds S.hash (List.replicate n none)
    S.hnext).map fun r => { S with hash := r.1, hnext := r.2 }

def remove (a : Addr) : Option StringTable :=
  if S.hash.isEmpty then some S
  else
    let i := slotOf S.hash.length (S.hashOf a)
    (unlink (· == a) S.rounds .head ⟨S.hash.getD i none, S.hnext⟩).map fun r =>
      match r.1 with
      | none => S
      | some _ =>
          { S with
            hash := S.hash.set i r.2.head
            hnext := Function.update r.2.next a none
            nuse := if 0 < S.nuse then S.nuse - 1 else S.nuse }

def holds (h : UInt32) (data : List UInt8) (a : Addr) : Bool :=
  match S.str a with
  | some x => x.hash == h && x.data.length == data.length && (data.isEmpty || x.data == data)
  | none => false

def insert (a : Addr) (data : List UInt8) (h : UInt32) : StringTable :=
  let i := slotOf S.hash.length h
  { hash := S.hash.set i (some a)
    nuse := S.nuse + 1
    str := Function.update S.str a (some ⟨data, h⟩)
    hnext := Function.update S.hnext a (S.hash.getD i none) }

def intern (a : Addr) (data : List UInt8) : Option (Addr × StringTable) :=
  let h := hashBytes data
  (if S.hash.isEmpty then S.resize 128 else some S).bind fun S =>
    let i := slotOf S.hash.length h
    (find S.hnext (S.holds h data) S.rounds (S.hash.getD i none)).bind fun
      | some p => some (p, S)
      | none =>
          (if S.nuse ≥ S.hash.length then S.resize (S.hash.length * 2) else some S).map fun S =>
            (a, S.insert a data h)

def free (a : Addr) : StringTable := { S with str := Function.update S.str a none }

/-- What happens to the table. -/
inductive Step : StringTable → StringTable → Prop
  | intern {S S' : StringTable} {a r : Addr} {data : List UInt8} :
      S.str a = none → S.intern a data = some (r, S') → Step S S'
  | remove {S S' : StringTable} {a : Addr} :
      (S.str a).isSome → S.remove a = some S' → Step S (S'.free a)
  | resize {S S' : StringTable} (newSize : Nat) : S.resize newSize = some S' → Step S S'

structure Ok (S : StringTable) (live : List Addr) (chain : Nat → List Addr) : Prop where
  buckets : Buckets S.hnext S.hash chain
  chained : ∀ i < S.hash.length, (chain i).Nodup ∧
    ∀ a, a ∈ chain i ↔ a ∈ live ∧ slotOf S.hash.length (S.hashOf a) = i
  nodup : live.Nodup
  live_iff : ∀ a, a ∈ live ↔ (S.str a).isSome
  nuse_eq : S.nuse = live.length
  hash_eq : ∀ {a x}, S.str a = some x → x.hash = hashBytes x.data
  canonical : ∀ {a b x y}, S.str a = some x → S.str b = some y → x.data = y.data → a = b
  size : (S.hash = [] ∧ live = []) ∨ ∃ k, S.hash.length = 2 ^ k

variable {S} {live : List Addr} {chain : Nat → List Addr}

theorem slotOf_lt (k : Nat) (h : UInt32) : slotOf (2 ^ k) h < 2 ^ k := by
  rw [slotOf, Nat.and_two_pow_sub_one_eq_mod]
  exact Nat.mod_lt _ (Nat.two_pow_pos k)

theorem doubleTo_pow (newSize : Nat) (k : Nat) : ∀ j, ∃ m, doubleTo newSize k (2 ^ j) = 2 ^ m := by
  induction k with
  | zero => exact fun j => ⟨j, rfl⟩
  | succ k ih =>
      intro j
      rw [doubleTo]
      split
      · rw [Nat.shiftLeft_eq, ← Nat.pow_add]
        exact ih (j + 1)
      · exact ⟨j, rfl⟩

theorem bucketCount_pow (newSize : Nat) : ∃ k, bucketCount newSize = 2 ^ k :=
  doubleTo_pow _ _ 0

theorem le_doubleTo (newSize : Nat) (k : Nat) : ∀ n, 0 < n → newSize ≤ n + k →
    newSize ≤ doubleTo newSize k n := by
  induction k with
  | zero => exact fun n _ h => h
  | succ k ih =>
      intro n hn h
      rw [doubleTo]
      split
      · refine ih _ ?_ ?_ <;> rw [Nat.shiftLeft_eq] <;> omega
      · omega

theorem le_bucketCount (newSize : Nat) : newSize ≤ bucketCount newSize := by
  have h : ∀ n, n ≤ doubleTo n n 1 := fun n => le_doubleTo n n 1 Nat.one_pos (by omega)
  unfold bucketCount
  by_cases hsmall : newSize < 32
  · simp only [if_pos hsmall]
    exact Nat.le_trans (Nat.le_of_lt hsmall) (h 32)
  · simp only [if_neg hsmall]
    exact h newSize

theorem Ok.slot_lt (h : Ok S live chain) {a : Addr} (ha : a ∈ live) :
    slotOf S.hash.length (S.hashOf a) < S.hash.length := by
  rcases h.size with ⟨-, hnil⟩ | ⟨k, hk⟩
  · rw [hnil] at ha
    exact nomatch ha
  · rw [hk]
    exact slotOf_lt k _

theorem Ok.chain_lt (h : Ok S live chain) {i : Nat} (hi : i < S.hash.length) :
    (chain i).length < S.rounds := by
  obtain ⟨hnodup, hmem⟩ := h.chained i hi
  have hsub : chain i ⊆ live := fun a ha => ((hmem a).mp ha).1
  rw [rounds, h.nuse_eq]
  exact Nat.lt_succ_of_le (hnodup.subperm hsub).length_le

theorem Ok.flatten (h : Ok S live chain) :
    ((List.range S.hash.length).map chain).flatten.Nodup ∧
      ∀ a, a ∈ ((List.range S.hash.length).map chain).flatten ↔ a ∈ live := by
  constructor
  · refine List.nodup_flatten.mpr ⟨?_, ?_⟩
    · intro l hl
      obtain ⟨i, hi, rfl⟩ := List.mem_map.mp hl
      exact (h.chained i (List.mem_range.mp hi)).1
    · rw [List.pairwise_map]
      refine List.nodup_range.imp_of_mem fun {i j} hi hj hij a ha ha' => hij ?_
      rw [← (((h.chained i (List.mem_range.mp hi)).2 a).mp ha).2]
      exact (((h.chained j (List.mem_range.mp hj)).2 a).mp ha').2
  · intro a
    rw [List.mem_flatten]
    constructor
    · rintro ⟨l, hl, ha⟩
      obtain ⟨i, hi, rfl⟩ := List.mem_map.mp hl
      exact (((h.chained i (List.mem_range.mp hi)).2 a).mp ha).1
    · intro ha
      have hi := h.slot_lt ha
      exact ⟨_, List.mem_map.mpr ⟨_, List.mem_range.mpr hi, rfl⟩,
        ((h.chained _ hi).2 a).mpr ⟨ha, rfl⟩⟩

theorem Ok.resize (h : Ok S live chain) (newSize : Nat) :
    ∃ S' chain', S.resize newSize = some S' ∧ Ok S' live chain' ∧ S'.str = S.str ∧
      S'.hash.length = bucketCount newSize := by
  obtain ⟨hnodup, hmem⟩ := h.flatten
  generalize hn : bucketCount newSize = n
  have hempty : Buckets S.hnext (List.replicate n none) fun _ => [] := by
    intro i hi
    rw [List.length_replicate] at hi
    rw [List.getD_replicate _ hi]
    rfl
  obtain ⟨heads, next, chain', hok, hlen, hbuckets, hchained⟩ :=
    scatterAll_spec (fun a => slotOf n (S.hashOf a)) h.buckets.forall₂ hnodup hempty
      (fun _ _ => List.nodup_nil) (fun _ _ _ _ => List.not_mem_nil) (n := S.rounds) (by
        intro l hl
        obtain ⟨i, hi, rfl⟩ := List.mem_map.mp hl
        exact h.chain_lt (List.mem_range.mp hi))
  rw [List.length_replicate] at hlen hchained
  refine ⟨{ S with hash := heads, hnext := next }, chain', ?_, ?_, rfl, hlen⟩
  · simp only [StringTable.resize, hn, hok, Option.map_some]
  · refine ⟨hbuckets, fun i hi => ?_, h.nodup, h.live_iff, h.nuse_eq, h.hash_eq, h.canonical, ?_⟩
    · obtain ⟨hnd, hall⟩ := hchained i (hlen ▸ hi)
      refine ⟨hnd, fun a => ?_⟩
      rw [hall, hmem, hlen]
      simp only [List.not_mem_nil, false_or]
      rfl
    · obtain ⟨k, hk⟩ := bucketCount_pow newSize
      exact Or.inr ⟨k, by rw [← hk, hn]; exact hlen⟩

theorem Ok.remove (h : Ok S live chain) {a : Addr} (ha : a ∈ live) :
    ∃ S' chain', S.remove a = some S' ∧ Ok (S'.free a) (live.erase a) chain' ∧
      (S'.free a).str = Function.update S.str a none := by
  have hi := h.slot_lt ha
  obtain ⟨hnodup, hmem⟩ := h.chained _ hi
  have hain := (hmem a).mpr ⟨ha, rfl⟩
  have hne : S.hash.isEmpty = false := by
    cases hh : S.hash with
    | nil => rw [hh] at hi; exact absurd hi (Nat.not_lt_zero _)
    | cons b rest => rfl
  generalize hslot : slotOf S.hash.length (S.hashOf a) = i at hi hnodup hmem hain
  obtain ⟨m, hok, hframe, hleads⟩ := unlink_spec (· == a) (m := ⟨S.hash.getD i none, S.hnext⟩)
    (q := .head) (h.buckets i hi) hnodup (fun _ hh => nomatch hh) (h.chain_lt hi)
  obtain ⟨b, hfound⟩ := Option.isSome_iff_exists.mp
    (List.find?_isSome.mpr ⟨a, hain, beq_self_eq_true a⟩ : ((chain i).find? (· == a)).isSome)
  rw [hfound] at hok
  rw [← List.erase_eq_eraseP'] at hleads
  have hlen : (S.hash.set i m.head).length = S.hash.length := List.length_set
  have hstr : ∀ {x y}, Function.update S.str a none x = some y ↔ x ≠ a ∧ S.str x = some y := by
    intro x y
    by_cases hx : x = a
    · simp [hx]
    · simp [hx]
  let S' : StringTable :=
    { S with
      hash := S.hash.set i m.head
      hnext := Function.update m.next a none
      nuse := if 0 < S.nuse then S.nuse - 1 else S.nuse }
  have hstr' : (S'.free a).str = Function.update S.str a none := rfl
  refine ⟨S', fun j => if i = j then (chain i).erase a else chain j, ?_, ?_, rfl⟩
  · simp only [StringTable.remove, hne, hslot, hok, Option.map_some, Bool.false_eq_true, if_false]
    rfl
  · refine ⟨fun j hj => ?_, fun j hj => ?_, h.nodup.erase a, fun x => ?_, ?_, ?_, ?_, ?_⟩
    · change j < (S.hash.set i m.head).length at hj
      show Leads (Function.update m.next a none) ((S.hash.set i m.head).getD j none) _
      rw [hlen] at hj
      by_cases hij : i = j
      · subst hij
        rw [if_pos rfl, List.getD_eq_getElem?_getD, List.getElem?_set_self hi]
        exact hleads.update (fun hmem => (hnodup.mem_erase_iff.mp hmem).1 rfl) none
      · rw [if_neg hij, List.getD_eq_getElem?_getD, List.getElem?_set_ne hij,
          ← List.getD_eq_getElem?_getD]
        have hout : ∀ x ∈ chain j, x ∉ chain i := fun x hx hx' =>
          hij (((hmem x).mp hx').2.symm.trans (((h.chained j hj).2 x).mp hx).2)
        refine Leads.update ?_ (fun haj => hout a haj hain) none
        exact (h.buckets j hj).congr fun x hx => hframe.next x (hout x hx) fun hh => nomatch hh
    · have hlen' : (S'.free a).hash.length = S.hash.length := hlen
      rw [hlen'] at hj ⊢
      have hslot' : ∀ x, x ≠ a → (S'.free a).hashOf x = S.hashOf x := by
        intro x hx
        rw [hashOf, hashOf, hstr', Function.update_of_ne hx]
      have hall := (h.chained j hj).2
      by_cases hij : i = j
      · subst hij
        rw [if_pos rfl]
        refine ⟨hnodup.erase a, fun x => ?_⟩
        rw [hnodup.mem_erase_iff, h.nodup.mem_erase_iff, hall, and_assoc]
        refine and_congr_right fun hx => ?_
        rw [hslot' x hx]
      · rw [if_neg hij]
        refine ⟨(h.chained j hj).1, fun x => ?_⟩
        rw [h.nodup.mem_erase_iff, hall, and_assoc]
        by_cases hx : x = a
        · subst hx
          rw [hslot]
          simp [hij]
        · rw [hslot' x hx]
          simp [hx]
    · rw [h.nodup.mem_erase_iff, h.live_iff, Option.isSome_iff_exists, Option.isSome_iff_exists]
      simp only [hstr', hstr, exists_and_left]
    · show (if 0 < S.nuse then S.nuse - 1 else S.nuse) = _
      have hpos : 0 < live.length := List.length_pos_of_mem ha
      rw [List.length_erase_of_mem ha, h.nuse_eq, if_pos hpos]
    · exact fun hx => h.hash_eq (hstr.mp hx).2
    · exact fun hx hy => h.canonical (hstr.mp hx).2 (hstr.mp hy).2
    · rcases h.size with ⟨hnil, -⟩ | ⟨k, hk⟩
      · rw [hnil] at hne
        exact nomatch hne
      · exact Or.inr ⟨k, hlen.trans hk⟩

theorem Ok.holds_iff (h : Ok S live chain) {data : List UInt8} {p : Addr} {x : LjString}
    (hx : S.str p = some x) : S.holds (hashBytes data) data p = true ↔ x.data = data := by
  rw [holds, hx]
  constructor
  · intro hsame
    simp only [Bool.and_eq_true, Bool.or_eq_true, beq_iff_eq, List.isEmpty_iff] at hsame
    obtain ⟨⟨-, hlen⟩, rfl | hdata⟩ := hsame
    · exact List.eq_nil_of_length_eq_zero hlen
    · exact hdata
  · rintro rfl
    simp [h.hash_eq hx]

theorem Ok.insert (h : Ok S live chain) (hne : S.hash ≠ []) {a : Addr} {data : List UInt8}
    (ha : S.str a = none) (hnew : ∀ p x, S.str p = some x → x.data ≠ data) :
    ∃ chain', Ok (S.insert a data (hashBytes data)) (a :: live) chain' := by
  have halive : a ∉ live := by
    rw [h.live_iff, ha]
    exact Bool.false_ne_true
  obtain ⟨k, hk⟩ := h.size.resolve_left fun hnil => hne hnil.1
  have hout : ∀ i < S.hash.length, a ∉ chain i := fun i hi hmem =>
    halive (((h.chained i hi).2 a).mp hmem).1
  have hstr : ∀ {p x}, (S.insert a data (hashBytes data)).str p = some x ↔
      (p = a ∧ ⟨data, hashBytes data⟩ = x) ∨ (p ≠ a ∧ S.str p = some x) := by
    intro p x
    by_cases hp : p = a
    · simp [StringTable.insert, hp]
    · simp [StringTable.insert, hp]
  have hlen : (S.insert a data (hashBytes data)).hash.length = S.hash.length := List.length_set
  have hhash : ∀ p, (S.insert a data (hashBytes data)).hashOf p =
      if p = a then hashBytes data else S.hashOf p := by
    intro p
    by_cases hp : p = a
    · simp [StringTable.insert, hashOf, hp]
    · simp [StringTable.insert, hashOf, hp]
  refine ⟨_, h.buckets.pushFront hout, fun i hi => ?_, List.nodup_cons.mpr ⟨halive, h.nodup⟩,
    fun p => ?_, ?_, ?_, ?_, ?_⟩
  · rw [hlen] at hi ⊢
    obtain ⟨hnodup, hmem⟩ := h.chained i hi
    have hmem' : ∀ p, p ∈ chain i ↔ p ≠ a ∧ p ∈ live ∧ slotOf S.hash.length
        ((S.insert a data (hashBytes data)).hashOf p) = i := by
      intro p
      rw [hmem, hhash]
      by_cases hp : p = a
      · simp [hp, halive]
      · simp [hp]
    have hself : (S.insert a data (hashBytes data)).hashOf a = hashBytes data := by
      rw [hhash, if_pos rfl]
    by_cases hslot : slotOf S.hash.length (hashBytes data) = i
    · rw [if_pos hslot]
      refine ⟨List.nodup_cons.mpr ⟨hout i hi, hnodup⟩, fun p => ?_⟩
      rw [List.mem_cons, List.mem_cons, hmem']
      by_cases hp : p = a
      · simp [hp, hself, hslot]
      · simp [hp]
    · rw [if_neg hslot]
      refine ⟨hnodup, fun p => ?_⟩
      rw [List.mem_cons, hmem']
      by_cases hp : p = a
      · simp [hp, hself, hslot]
      · simp [hp]
  · rw [List.mem_cons, h.live_iff, Option.isSome_iff_exists, Option.isSome_iff_exists]
    simp only [hstr]
    by_cases hp : p = a
    · simp [hp]
    · simp [hp]
  · show S.nuse + 1 = _
    rw [h.nuse_eq, List.length_cons]
  · intro p x hx
    rcases hstr.mp hx with ⟨-, rfl⟩ | ⟨-, hx⟩
    · rfl
    · exact h.hash_eq hx
  · intro p q x y hx hy hsame
    rcases hstr.mp hx with ⟨rfl, rfl⟩ | ⟨-, hx'⟩
    · rcases hstr.mp hy with ⟨rfl, -⟩ | ⟨-, hy'⟩
      · rfl
      · exact absurd hsame.symm (hnew q y hy')
    · rcases hstr.mp hy with ⟨rfl, rfl⟩ | ⟨-, hy'⟩
      · exact absurd hsame (hnew p x hx')
      · exact h.canonical hx' hy' hsame
  · exact Or.inr ⟨k, hlen.trans hk⟩

theorem Ok.empty : Ok {} [] fun _ => [] where
  buckets _ hi := absurd hi (Nat.not_lt_zero _)
  chained _ hi := absurd hi (Nat.not_lt_zero _)
  nodup := List.nodup_nil
  live_iff _ := by simp
  nuse_eq := rfl
  hash_eq h := nomatch h
  canonical h := nomatch h
  size := Or.inl ⟨rfl, rfl⟩

theorem Ok.intern (h : Ok S live chain) {a : Addr} (ha : S.str a = none) (data : List UInt8) :
    ∃ r S' live' chain', S.intern a data = some (r, S') ∧ Ok S' live' chain' ∧
      (∃ x, S'.str r = some x ∧ x.data = data) ∧ ∀ b, b ≠ a → S'.str b = S.str b := by
  -- the table has buckets from here on
  obtain ⟨S₀, chain₀, hok₀, h₀, hstr₀, hne₀⟩ : ∃ S₀ chain₀,
      (if S.hash.isEmpty then S.resize 128 else some S) = some S₀ ∧ Ok S₀ live chain₀ ∧
        S₀.str = S.str ∧ S₀.hash ≠ [] := by
    by_cases hempty : S.hash.isEmpty = true
    · obtain ⟨S₀, chain₀, hok, h₀, hstr, hlen⟩ := h.resize 128
      refine ⟨S₀, chain₀, by rw [if_pos hempty, hok], h₀, hstr, fun hnil => ?_⟩
      rw [hnil] at hlen
      exact absurd hlen (by decide)
    · exact ⟨S, chain, if_neg hempty, h, rfl, fun hnil => hempty (List.isEmpty_iff.mpr hnil)⟩
  obtain ⟨k, hk⟩ := h₀.size.resolve_left fun hnil => hne₀ hnil.1
  have hi : slotOf S₀.hash.length (hashBytes data) < S₀.hash.length := by
    rw [hk]
    exact slotOf_lt k _
  have hfind := find_eq (S₀.holds (hashBytes data) data) (h₀.buckets _ hi) (h₀.chain_lt hi)
  obtain ⟨-, hmem⟩ := h₀.chained _ hi
  simp only [StringTable.intern, hok₀, Option.bind_some, hfind]
  cases hfound : (chain₀ (slotOf S₀.hash.length (hashBytes data))).find?
      (S₀.holds (hashBytes data) data) with
  | some p =>
      have hp := ((hmem p).mp (List.mem_of_find?_eq_some hfound)).1
      obtain ⟨x, hx⟩ := Option.isSome_iff_exists.mp ((h₀.live_iff p).mp hp)
      refine ⟨p, S₀, live, chain₀, rfl, h₀, ⟨x, hx, (h₀.holds_iff hx).mp ?_⟩, fun b _ => ?_⟩
      · exact List.find?_some hfound
      · rw [hstr₀]
  | none =>
      -- an equal string would be in this chain
      have hnew : ∀ p x, S₀.str p = some x → x.data ≠ data := by
        rintro p x hx rfl
        have hlive : p ∈ live := (h₀.live_iff p).mpr (by rw [hx]; rfl)
        have hslot : S₀.hashOf p = hashBytes x.data := by
          rw [hashOf, hx, ← h₀.hash_eq hx]
          rfl
        have hin := (hmem p).mpr ⟨hlive, by rw [hslot]⟩
        exact List.find?_eq_none.mp hfound p hin ((h₀.holds_iff hx).mpr rfl)
      obtain ⟨S₁, chain₁, hok₁, h₁, hstr₁, hne₁⟩ : ∃ S₁ chain₁,
          (if S₀.nuse ≥ S₀.hash.length then S₀.resize (S₀.hash.length * 2) else some S₀) =
            some S₁ ∧ Ok S₁ live chain₁ ∧ S₁.str = S₀.str ∧ S₁.hash ≠ [] := by
        by_cases hfull : S₀.nuse ≥ S₀.hash.length
        · obtain ⟨S₁, chain₁, hok, h₁, hstr, hlen⟩ := h₀.resize (S₀.hash.length * 2)
          refine ⟨S₁, chain₁, by rw [if_pos hfull, hok], h₁, hstr, fun hnil => ?_⟩
          obtain ⟨j, hj⟩ := bucketCount_pow (S₀.hash.length * 2)
          rw [hnil, hj] at hlen
          exact absurd hlen.symm (Nat.two_pow_pos j).ne'
        · exact ⟨S₀, chain₀, if_neg hfull, h₀, rfl, hne₀⟩
      have ha₁ : S₁.str a = none := by rw [hstr₁, hstr₀, ha]
      have hnew₁ : ∀ p x, S₁.str p = some x → x.data ≠ data := hstr₁ ▸ hnew
      obtain ⟨chain', h'⟩ := h₁.insert hne₁ ha₁ hnew₁
      refine ⟨a, S₁.insert a data (hashBytes data), a :: live, chain', ?_, h', ?_, ?_⟩
      · simp only [hok₁, Option.map_some]
      · exact ⟨_, Function.update_self a _ S₁.str, rfl⟩
      · intro b hba
        show Function.update S₁.str a _ b = S.str b
        rw [Function.update_of_ne hba, hstr₁, hstr₀]

theorem Ok.step {S' : StringTable} (h : ∃ live chain, Ok S live chain) (hstep : Step S S') :
    ∃ live chain, Ok S' live chain := by
  obtain ⟨live, chain, h⟩ := h
  cases hstep with
  | intern ha hr =>
      obtain ⟨r, S₁, live', chain', hok, h', -⟩ := h.intern ha _
      rw [hr] at hok
      cases hok
      exact ⟨live', chain', h'⟩
  | remove ha hr =>
      obtain ⟨S₁, chain', hok, h', -⟩ := h.remove ((h.live_iff _).mpr ha)
      rw [hr] at hok
      cases hok
      exact ⟨_, chain', h'⟩
  | resize newSize hr =>
      obtain ⟨S₁, chain', hok, h', -⟩ := h.resize newSize
      rw [hr] at hok
      cases hok
      exact ⟨live, chain', h'⟩

/--
After any history of the table: equal strings are one object; every string is in
the chain of its bucket, once, and in no other; the count is that of the strings;
and the next operation ends, where `intern` answers with a string of the
contents asked for and touches no other.
-/
theorem interned_canonical (hrun : Relation.ReflTransGen Step {} S) :
    (∀ a b x y, S.str a = some x → S.str b = some y → (x.data = y.data ↔ a = b)) ∧
    (∃ live : List Addr, ∃ chain : Nat → List Addr,
      live.Nodup ∧ (∀ a, a ∈ live ↔ (S.str a).isSome) ∧ S.nuse = live.length ∧
      (∀ a ∈ live, slotOf S.hash.length (S.hashOf a) < S.hash.length) ∧
      ∀ i < S.hash.length, Leads S.hnext (S.hash.getD i none) (chain i) ∧ (chain i).Nodup ∧
        ∀ a, a ∈ chain i ↔ a ∈ live ∧ slotOf S.hash.length (S.hashOf a) = i) ∧
    (∀ a data, S.str a = none → ∃ r S', S.intern a data = some (r, S') ∧
      (∃ x, S'.str r = some x ∧ x.data = data) ∧ ∀ b, b ≠ a → S'.str b = S.str b) ∧
    (∀ a, (S.str a).isSome → ∃ S', S.remove a = some S' ∧
      (S'.free a).str = Function.update S.str a none) ∧
    ∀ newSize, ∃ S', S.resize newSize = some S' ∧ S'.str = S.str ∧
      newSize ≤ S'.hash.length := by
  obtain ⟨live, chain, h⟩ := Machine.invariant_of_path
    (fun S => ∃ live chain, Ok S live chain) Ok.step ⟨[], _, .empty⟩ hrun
  refine ⟨fun a b x y hx hy => ⟨h.canonical hx hy, ?_⟩, ⟨live, chain, h.nodup, h.live_iff,
    h.nuse_eq, fun a ha => h.slot_lt ha, fun i hi => ⟨h.buckets i hi, h.chained i hi⟩⟩,
    fun a data ha => ?_, fun a ha => ?_, fun newSize => ?_⟩
  · rintro rfl
    rw [hx] at hy
    rw [Option.some.inj hy]
  · obtain ⟨r, S', -, -, hok, -, hdata, hkeep⟩ := h.intern ha data
    exact ⟨r, S', hok, hdata, hkeep⟩
  · obtain ⟨S', -, hok, -, hstr⟩ := h.remove ((h.live_iff a).mpr ha)
    exact ⟨S', hok, hstr⟩
  · obtain ⟨S', -, hok, -, hstr, hlen⟩ := h.resize newSize
    exact ⟨S', hok, hstr, hlen ▸ le_bucketCount newSize⟩

/-- Interned again, a string is the object that it was. -/
theorem interned_twice : ∃ a S r S', ({} : StringTable).intern 1 [97] = some (a, S) ∧
    S.intern 2 [97] = some (r, S') ∧ r = a := by
  have hstr : ({} : StringTable).str 1 = none := rfl
  obtain ⟨-, -, hintern, -⟩ := interned_canonical .refl
  obtain ⟨a, S, hok, ⟨x, hx, hdata⟩, hkeep⟩ := hintern 1 [97] hstr
  have hrun := Relation.ReflTransGen.single (Step.intern hstr hok)
  have hfree : S.str 2 = none := (hkeep 2 (by decide)).trans rfl
  obtain ⟨-, -, hintern, -⟩ := interned_canonical hrun
  obtain ⟨r, S', hok', ⟨y, hy, hdata'⟩, hkeep'⟩ := hintern 2 [97] hfree
  have ha : a ≠ 2 := fun ha => by
    rw [ha, hfree] at hx
    exact nomatch hx
  obtain ⟨hsame, -⟩ := interned_canonical (hrun.tail (Step.intern hfree hok'))
  exact ⟨a, S, r, S', hok, hok',
    (hsame r a y x hy ((hkeep' a ha).trans hx)).mp (hdata'.trans hdata.symm)⟩

end StringTable

end Luatier
