import Mathlib.Data.List.Basic

/-!
# Names of chunks

How the source name of a chunk is shown: a name behind `=` or `@`, or the first line of
the text itself.  Errors of `error` and debug information show it by functions of their
own.
-/

namespace Luatier.ChunkNames

def opening : List UInt8 := "[string \"".toUTF8.toList

def closing : List UInt8 := "\"]".toUTF8.toList

def dots : List UInt8 := "...".toUTF8.toList

def findNewline (source : List UInt8) : Option Nat := source.findIdx? (· = '\n'.toUInt8)

/-! ## The two functions -/

def kIdSize : Nat := 60

/-- `error_chunkid` of the base library. -/
def errorChunkid (source : List UInt8) : List UInt8 :=
  if source.head? = some '='.toUInt8 then
    let len := source.length - 1
    if len ≤ kIdSize then source.drop 1 else (source.drop 1).take kIdSize
  else if source.head? = some '@'.toUInt8 then
    let len := source.length - 1
    if len ≤ kIdSize then source.drop 1
    else dots ++ source.drop (source.length - (kIdSize - 3))
  else
    let budget := kIdSize - 11
    let nl := findNewline source
    let len := nl.getD source.length
    if len < budget ∧ nl = none then opening ++ source.take len ++ closing
    else
      let len := if budget < len then budget else len
      opening ++ source.take len ++ dots ++ closing

def kMax : Nat := 59

/-- `format_chunkid` of the debug interface. -/
def formatChunkid (source : List UInt8) : List UInt8 :=
  if source.head? = some '='.toUInt8 then
    let len := source.length - 1
    if len ≤ kMax then source.drop 1 else (source.drop 1).take kMax
  else if source.head? = some '@'.toUInt8 then
    let len := source.length - 1
    if len ≤ kMax then source.drop 1
    else dots ++ source.drop (source.length - (kMax - 3))
  else
    let wrap := 11
    let room := kMax - wrap
    let roomTrunc := kMax - wrap - 3
    let nl := findNewline source
    let len := nl.getD source.length
    if len ≤ room ∧ nl = none then opening ++ source.take len ++ closing
    else
      let len := if roomTrunc < len then roomTrunc else len
      opening ++ source.take len ++ dots ++ closing

/-! ## Shortening to a size -/

/-- A name behind its mark keeps its first or its last `limit` characters.  Of a text,
one line of at most `room` characters is shown whole, and at most `cut` characters of
the first line otherwise. -/
def shorten (limit room cut : Nat) (source : List UInt8) : List UInt8 :=
  if source.head? = some '='.toUInt8 then (source.drop 1).take limit
  else if source.head? = some '@'.toUInt8 then
    if source.length ≤ limit + 1 then source.drop 1
    else dots ++ source.drop (source.length - (limit - 3))
  else if source.length ≤ room ∧ findNewline source = none then opening ++ source ++ closing
  else
    opening ++ source.take (min cut ((findNewline source).getD source.length)) ++ dots ++ closing

theorem wrapping_length : opening.length = 9 ∧ closing.length = 2 ∧ dots.length = 3 := by
  decide +kernel

theorem findNewline_le (source : List UInt8) :
    (findNewline source).getD source.length ≤ source.length := by
  cases hnl : findNewline source with
  | none => exact Nat.le_refl _
  | some nl =>
      obtain ⟨hlt, -⟩ := List.findIdx?_eq_some_iff_getElem.mp hnl
      exact Nat.le_of_lt hlt

theorem cut_eq_min (cut len : Nat) : (if cut < len then cut else len) = min cut len := by
  split_ifs <;> omega

theorem errorChunkid_eq (source : List UInt8) :
    errorChunkid source = shorten 60 48 49 source := by
  unfold errorChunkid shorten kIdSize
  by_cases hname : source.head? = some '='.toUInt8
  · simp only [if_pos hname]
    split_ifs with hlen
    · rw [List.take_of_length_le (by simpa using hlen)]
    · rfl
  by_cases hfile : source.head? = some '@'.toUInt8
  · simp only [if_neg hname, if_pos hfile, Nat.sub_le_iff_le_add]
  simp only [if_neg hname, if_neg hfile, Nat.reduceSub, cut_eq_min, Nat.lt_succ_iff]
  cases hnl : findNewline source with
  | none => simp only [Option.getD_none, and_true, List.take_length]
  | some nl => simp

theorem formatChunkid_eq (source : List UInt8) :
    formatChunkid source = shorten 59 48 45 source := by
  unfold formatChunkid shorten kMax
  by_cases hname : source.head? = some '='.toUInt8
  · simp only [if_pos hname]
    split_ifs with hlen
    · rw [List.take_of_length_le (by simpa using hlen)]
    · rfl
  by_cases hfile : source.head? = some '@'.toUInt8
  · simp only [if_neg hname, if_pos hfile, Nat.sub_le_iff_le_add]
  simp only [if_neg hname, if_neg hfile, Nat.reduceSub, cut_eq_min]
  cases hnl : findNewline source with
  | none => simp
  | some nl => simp

section Length

variable {limit room cut : Nat} {source : List UInt8}

theorem shorten_length (h : 3 ≤ limit) :
    (shorten limit room cut source).length =
      if source.head? = some '='.toUInt8 ∨ source.head? = some '@'.toUInt8 then
        min limit (source.length - 1)
      else if source.length ≤ room ∧ findNewline source = none then source.length + 11
      else min cut ((findNewline source).getD source.length) + 14 := by
  have hle := findNewline_le source
  obtain ⟨hopening, hclosing, hdots⟩ := wrapping_length
  unfold shorten
  by_cases hname : source.head? = some '='.toUInt8
  · simp [hname]
  by_cases hfile : source.head? = some '@'.toUInt8
  · rw [if_neg hname, if_pos hfile, if_pos (Or.inr hfile)]
    split_ifs
    · simp only [List.length_drop]
      omega
    · simp only [List.length_append, List.length_drop, hdots]
      omega
  · have hmark : ¬ (source.head? = some '='.toUInt8 ∨ source.head? = some '@'.toUInt8) :=
      not_or.mpr ⟨hname, hfile⟩
    rw [if_neg hname, if_neg hfile, if_neg hmark]
    split_ifs
    · simp only [List.length_append, hopening, hclosing]
      omega
    · simp only [List.length_append, List.length_take, hopening, hclosing, hdots]
      omega

end Length

/-- The names that both functions show alike. -/
def Fits (source : List UInt8) : Prop :=
  if source.head? = some '='.toUInt8 ∨ source.head? = some '@'.toUInt8 then source.length ≤ 60
  else
    match findNewline source with
    | none => source.length ≤ 48
    | some nl => nl ≤ 45

theorem formatChunkid_length_le (source : List UInt8) : (formatChunkid source).length ≤ 59 := by
  rw [formatChunkid_eq, shorten_length (by decide)]
  split_ifs <;> omega

theorem errorChunkid_length_le_iff (source : List UInt8) :
    (errorChunkid source).length ≤ 59 ↔ Fits source := by
  rw [errorChunkid_eq, shorten_length (by decide), Fits]
  split_ifs with hname hwhole
  · omega
  · rw [hwhole.2]
    simp only
    omega
  · cases hnl : findNewline source with
    | none =>
        have : ¬ source.length ≤ 48 := fun hle => hwhole ⟨hle, hnl⟩
        simp only [Option.getD_none]
        omega
    | some nl =>
        simp only [Option.getD_some]
        omega

theorem chunkids_eq_of_fits {source : List UInt8} (h : Fits source) :
    errorChunkid source = formatChunkid source := by
  rw [errorChunkid_eq, formatChunkid_eq]
  unfold shorten
  by_cases hname : source.head? = some '='.toUInt8
  · have hlen : source.length ≤ 60 := by simpa [Fits, hname] using h
    simp only [if_pos hname]
    rw [List.take_of_length_le, List.take_of_length_le]
    all_goals
      simp
      omega
  by_cases hfile : source.head? = some '@'.toUInt8
  · have hlen : source.length ≤ 60 := by simpa [Fits, hfile] using h
    simp only [if_neg hname, if_pos hfile]
    rw [if_pos (by omega), if_pos (by omega)]
  simp only [if_neg hname, if_neg hfile]
  cases hnl : findNewline source with
  | none =>
      have hlen : source.length ≤ 48 := by simpa [Fits, hname, hfile, hnl] using h
      simp [hlen]
  | some nl =>
      have hline : nl ≤ 45 := by simpa [Fits, hname, hfile, hnl] using h
      have hmin : min 49 nl = min 45 nl := by omega
      simp [hmin]

/-- Both functions show a name alike, in at most 59 characters, exactly where it fits. -/
theorem chunkids_agree_iff (source : List UInt8) :
    (errorChunkid source = formatChunkid source ∧ (errorChunkid source).length ≤ 59 ∧
      (formatChunkid source).length ≤ 59) ↔ Fits source := by
  constructor
  · exact fun h => (errorChunkid_length_le_iff source).mp h.2.1
  · intro h
    exact ⟨chunkids_eq_of_fits h, (errorChunkid_length_le_iff source).mpr h,
      formatChunkid_length_le source⟩

/-- A name of 60 characters is shown whole by one function and cut by the other. -/
theorem errorChunkid_sixty :
    ¬ (∀ source, errorChunkid source = formatChunkid source ∧ (errorChunkid source).length ≤ 59 ∧
      (formatChunkid source).length ≤ 59) := by
  intro h
  have hlen := (h ('='.toUInt8 :: List.replicate 60 'a'.toUInt8)).2.1
  revert hlen
  decide

end Luatier.ChunkNames
