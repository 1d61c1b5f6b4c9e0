import Luatier.Stdlib.DumpSpec

/-!
# Binary chunks that were cut off

Every reader stops at the end of the blob with the error `truncated`, and reads no
further than it has to.  A blob that is read as a whole is the only one of its prefixes
that is.
-/

namespace Luatier.Dump

open Codec Codec.Reader

/-! ## Readers run along the blob -/

section Streams

abbrev Local {α : Type} (r : ByteReader α) : Prop := Streams "truncated" r

theorem local_u8 : Local getU8 where
  taken {s x s'} h := by
    cases s with
    | nil => exact nomatch h
    | cons b rest =>
        cases h
        exact ⟨[x], rfl, reads_u8 x⟩
  failed {s e} h := by
    cases s with
    | nil =>
        cases h
        exact .inl rfl
    | cons b rest => exact nomatch h

theorem local_bytes (n : Nat) : Local (getBytes n) where
  taken {s x s'} h := by
    unfold getBytes at h
    split at h
    · exact nomatch h
    · rename_i hlen
      cases h
      have htake : (s.take n).length = n := by
        rw [List.length_take]
        omega
      have hread := reads_bytes (s.take n)
      rw [htake] at hread
      exact ⟨s.take n, (List.take_append_drop n s).symm, hread⟩
  failed {s e} h := by
    unfold getBytes at h
    split at h
    · cases h
      exact .inl rfl
    · exact nomatch h

theorem local_word (n w : Nat) : Local (getWord n w) :=
  (streams_times local_u8 n).bind fun _ => streams_pure _

theorem local_u32 : Local getU32 := (local_word 4 32).bind fun _ => streams_pure _

theorem local_u64 : Local getU64 := (local_word 8 64).bind fun _ => streams_pure _

theorem local_int : Local getInt := local_u32.bind fun _ => streams_pure _

theorem local_i64 : Local getI64 := local_u64.bind fun _ => streams_pure _

theorem local_bool : Local getBool := local_u8.bind fun _ => streams_pure _

theorem local_str : Local getStr := local_u32.bind fun _ => local_bytes _

theorem local_all {α : Type} {get : ByteReader α} (h : Local get) : Local (getAll get) :=
  local_u32.bind fun n => streams_times h n.toNat

theorem local_const : Local readConst := by
  refine local_u8.bind fun tag => ?_
  unfold readConstOf
  split
  · exact streams_pure _
  · exact local_bool.bind fun _ => streams_pure _
  · exact local_i64.bind fun _ => streams_pure _
  · exact local_u64.bind fun _ => streams_pure _
  · exact local_str.bind fun _ => streams_pure _
  · exact streams_throw _

theorem local_upval : Local readUpval :=
  local_bool.bind fun _ => local_u8.bind fun _ => local_str.bind fun _ => streams_pure _

theorem local_locVar : Local readLocVar :=
  local_str.bind fun _ => local_int.bind fun _ => local_int.bind fun _ =>
    local_int.bind fun _ => streams_pure _

theorem local_head (name : List UInt8) : Local (readHead name) :=
  local_int.bind fun _ => local_bool.bind fun _ => local_int.bind fun _ =>
    (local_all local_u32).bind fun _ => (local_all local_const).bind fun _ =>
      local_str.bind fun _ => local_int.bind fun _ => local_int.bind fun _ => streams_pure _

theorem local_tail (p : Proto) : Local (readTail p) :=
  (local_all local_upval).bind fun _ => (local_all local_int).bind fun _ =>
    (local_all local_locVar).bind fun _ => streams_pure _

theorem local_proto (fuel : Nat) (name : List UInt8) : Local (readProto fuel name) := by
  induction fuel generalizing name with
  | zero => exact streams_throw _
  | succ fuel ih =>
      exact (local_head name).bind fun p => (local_all (ih p.source)).bind fun _ => local_tail _

theorem local_expectByte (b : UInt8) (what : String) : Local (expectByte b what) := by
  refine local_u8.bind fun c => ?_
  by_cases hc : c = b
  · rw [if_pos hc]
    exact streams_pure ()
  · rw [if_neg hc]
    exact streams_throw what

theorem local_expectBytes (what : String) (bs : List UInt8) : Local (expectBytes what bs) := by
  induction bs with
  | nil => exact streams_pure ()
  | cons b bs ih => exact (local_expectByte b what).bind fun _ => ih

theorem local_checkHeader : Local checkHeader := by
  refine (local_expectBytes _ _).bind fun _ => (local_expectByte _ _).bind fun _ =>
    (local_expectByte _ _).bind fun _ => (local_expectBytes _ _).bind fun _ =>
    (local_expectByte _ _).bind fun _ => (local_expectByte _ _).bind fun _ =>
    (local_expectByte _ _).bind fun _ => (local_expectByte _ _).bind fun _ =>
    (local_expectByte _ _).bind fun _ => ?_
  refine (local_i64.bind fun m => ?_).bind fun _ => local_u64.bind fun v => ?_
  · split_ifs
    · exact streams_pure ()
    · exact streams_throw _
  · split_ifs
    · exact streams_pure ()
    · exact streams_throw _

theorem local_chunk (fuel : Nat) (name : List UInt8) : Local (readChunk fuel name) :=
  local_checkHeader.bind fun _ => local_u8.bind fun _ => local_bool.bind fun _ =>
    local_proto fuel name

end Streams

/-! ## The fuel -/

theorem readHead_nil (name : List UInt8) : readHead name [] = .error "truncated" := rfl

theorem length_of_readHead {name s s' : List UInt8} {p : Proto}
    (h : readHead name s = .ok (p, s')) : s'.length < s.length := by
  obtain ⟨bs, rfl, hreads⟩ := (local_head name).taken h
  have hne : bs ≠ [] := by
    rintro rfl
    have hnil := hreads []
    rw [List.append_nil, readHead_nil] at hnil
    exact nomatch hnil
  have hpos := List.length_pos_iff.mpr hne
  rw [List.length_append]
  omega

theorem readProto_fuel (fuel fuel' : Nat) (name s : List UInt8) (h : s.length < fuel)
    (h' : s.length < fuel') : readProto fuel name s = readProto fuel' name s := by
  induction fuel generalizing fuel' name s with
  | zero => exact absurd h (Nat.not_lt_zero _)
  | succ fuel ih =>
      cases fuel' with
      | zero => exact absurd h' (Nat.not_lt_zero _)
      | succ fuel' =>
          show (readHead name s).bind _ = (readHead name s).bind _
          cases hhead : readHead name s with
          | error e => rfl
          | ok r =>
              obtain ⟨p, s₁⟩ := r
              have hlt := length_of_readHead hhead
              have hall : getAll (readProto fuel p.source) s₁ =
                  getAll (readProto fuel' p.source) s₁ := by
                show (getU32 s₁).bind _ = (getU32 s₁).bind _
                cases hn : getU32 s₁ with
                | error e => rfl
                | ok r =>
                    obtain ⟨n, s₂⟩ := r
                    obtain ⟨bs, rfl, -⟩ := local_u32.taken hn
                    rw [List.length_append] at hlt
                    exact times_congr (local_proto fuel p.source) n.toNat s₂ fun t ht =>
                      ih fuel' p.source t (by omega) (by omega)
              show (getAll (readProto fuel p.source) s₁).bind _ =
                (getAll (readProto fuel' p.source) s₁).bind _
              rw [hall]

/-! ## The whole blob -/

def Readable {α : Type} (r : ByteReader α) (bs : List UInt8) : Prop := ∃ x, Reads r bs x

theorem readable_source (strip : Bool) {source : List UInt8} (parentSource : Option (List UInt8))
    (h : SizeFits source.length) :
    Readable getStr (writeSource (effectiveSource strip source) parentSource) := by
  unfold writeSource
  by_cases hp : parentSource = some (effectiveSource strip source)
  · rw [if_pos hp]
    exact ⟨_, reads_str sizeFits_nil⟩
  · rw [if_neg hp]
    exact ⟨_, reads_str (sizeFits_effectiveSource strip h)⟩

theorem readable_protos (get : ByteReader Proto) (strip : Bool)
    (parentSource : Option (List UInt8)) (ps : List Proto)
    (h : ∀ p ∈ ps, Readable get (writeProto strip parentSource p)) :
    Readable (times get ps.length) (writeProtos strip parentSource ps) := by
  induction ps with
  | nil => exact ⟨_, reads_pure []⟩
  | cons p ps ih =>
      obtain ⟨q, hq⟩ := h p (List.mem_cons_self ..)
      obtain ⟨qs, hqs⟩ := ih fun q hq => h q (List.mem_cons_of_mem p hq)
      exact ⟨_, hq.bind hqs.bind_pure⟩

theorem readable_proto (strip : Bool) (fuel : Nat) {p : Proto}
    (parentSource : Option (List UInt8)) (name : List UInt8) (hfits : p.Fits)
    (hlen : (writeProto strip parentSource p).length < fuel) :
    Readable (readProto fuel name) (writeProto strip parentSource p) := by
  induction fuel generalizing p parentSource name with
  | zero => exact absurd hlen (Nat.not_lt_zero _)
  | succ fuel ih =>
      obtain ⟨numparams, isVararg, maxstack, code, constants, source, linedefined,
        lastlinedefined, protos, upvalues, lineinfo, locvars⟩ := p
      obtain ⟨hown, hins⟩ := hfits
      obtain ⟨src, hsrc⟩ := readable_source strip parentSource hown.source
      have hhead := reads_head_of (p := ⟨numparams, isVararg, maxstack, code, constants, source,
        linedefined, lastlinedefined, [], upvalues, lineinfo, locvars⟩) name hsrc
        ⟨hown.code, hown.constants, hown.source, sizeFits_nil, hown.upvalues,
          hown.lineinfo, hown.locvars⟩
      obtain ⟨hsize, hn⟩ := reads_size hown.protos
      obtain ⟨qs, hqs⟩ := readable_protos
        (readProto fuel (if src.isEmpty then name else src)) strip
        (some (effectiveSource strip source)) protos
        fun q hq => ih _ _ (allIn_mem hins hq) (by
          have hle := length_writeProtos strip (some (effectiveSource strip source)) hq
          simp only [writeProto, List.length_append] at hlen
          have hcount : 0 < (putSize protos.length).length := by
            rw [putSize, putU32, putWord_eq 4 (by decide), length_bytes]
            decide
          omega)
      rw [← hn] at hqs
      have hall := hhead.bind (f := fun p => do
        let protos ← getAll (readProto fuel p.source)
        readTail { p with protos }) ((hsize.bind hqs).bind (reads_tail strip hown))
      refine ⟨_, hall.of_eq ?_ rfl⟩
      rw [writeProto]
      simp only [List.append_assoc]
      rfl

theorem length_keepAll (strip : Bool) (ps : List Proto) :
    (keepAll strip ps).length = ps.length := by
  induction ps with
  | nil => rfl
  | cons p ps ih => rw [keepAll, List.length_cons, List.length_cons, ih]

mutual

theorem writeProto_keep (strip : Bool) (parentSource : Option (List UInt8)) : ∀ p : Proto,
    writeProto false parentSource (p.keep strip) = writeProto strip parentSource p
  | ⟨numparams, isVararg, maxstack, code, constants, source, linedefined, lastlinedefined,
      protos, upvalues, lineinfo, locvars⟩ => by
      have hupvals : putAll (writeUpval false) (upvalues.map (keepUpval strip)) =
          putAll (writeUpval strip) upvalues := by
        rw [putAll, putAll, List.length_map, List.flatMap_map]
        cases strip <;> rfl
      have htail : writeTail false
          { upvalues := upvalues.map (keepUpval strip)
            lineinfo := if strip then [] else lineinfo
            locvars := if strip then [] else locvars } =
          writeTail strip { upvalues, lineinfo, locvars } := by
        cases strip with
        | false => rw [keepUpval_false, List.map_id, if_neg Bool.false_ne_true,
            if_neg Bool.false_ne_true]
        | true => exact congrArg (· ++ (putSize 0 ++ putSize 0)) hupvals
      have hprotos := writeProtos_keep strip (some (effectiveSource strip source)) protos
      have heff : effectiveSource false (effectiveSource strip source) =
          effectiveSource strip source := rfl
      rw [Proto.keep, writeProto, writeProto, length_keepAll, heff, hprotos]
      exact congrArg (_ ++ ·) htail

theorem writeProtos_keep (strip : Bool) (parentSource : Option (List UInt8)) :
    ∀ ps : List Proto,
      writeProtos false parentSource (keepAll strip ps) = writeProtos strip parentSource ps
  | [] => rfl
  | p :: ps => by
      rw [keepAll, writeProtos, writeProtos, writeProto_keep strip parentSource p,
        writeProtos_keep strip parentSource ps]

end

theorem ownFits_keep (strip : Bool) {p : Proto} (h : p.OwnFits) : (p.keep strip).OwnFits := by
  obtain ⟨_, _, _, _, _, _, _, _, protos, upvalues, lineinfo, locvars⟩ := p
  have hname : ∀ uv ∈ upvalues, SizeFits (keepUpval strip uv).name.length := fun uv huv => by
    cases strip with
    | false => exact h.upvalues.2 uv huv
    | true => exact sizeFits_nil
  refine ⟨h.code, h.constants, sizeFits_effectiveSource strip h.source, ?_, ⟨?_, ?_⟩, ?_, ?_⟩
  · show SizeFits (keepAll strip protos).length
    rw [length_keepAll]
    exact h.protos
  · show SizeFits (upvalues.map (keepUpval strip)).length
    rw [List.length_map]
    exact h.upvalues.1
  · intro uv huv
    obtain ⟨uv', huv', rfl⟩ := List.mem_map.mp huv
    exact hname uv' huv'
  · cases strip with
    | false => exact h.lineinfo
    | true => exact sizeFits_nil
  · cases strip with
    | false => exact h.locvars
    | true => exact ⟨sizeFits_nil, fun lv hlv => nomatch hlv⟩

mutual

theorem fits_keep (strip : Bool) : ∀ p : Proto, p.Fits → (p.keep strip).Fits
  | ⟨_, _, _, _, _, _, _, _, protos, _, _, _⟩, h =>
      ⟨ownFits_keep strip h.1, fits_keepAll strip protos h.2⟩

theorem fits_keepAll (strip : Bool) : ∀ ps : List Proto,
    allIn Proto.OwnFits ps → allIn Proto.OwnFits (keepAll strip ps)
  | [], _ => trivial
  | p :: ps, h => ⟨fits_keep strip p h.1, fits_keepAll strip ps h.2⟩

end

theorem readable_chunk {p : Proto} (strip : Bool) (name : List UInt8)
    (hfits : (p.keep strip).Fits) :
    Readable (readChunk ((dumpProto p strip).length + 1) name) (dumpProto p strip) := by
  obtain ⟨q, hbody⟩ := readable_proto false ((dumpProto p strip).length + 1) none name hfits (by
    rw [writeProto_keep]
    simp only [dumpProto, List.length_append]
    omega)
  rw [writeProto_keep] at hbody
  have hchunk := reads_checkHeader.bind (f := fun _ => do
      let _nups ← getU8
      let _strip ← getBool
      readProto ((dumpProto p strip).length + 1) name)
    ((reads_u8 (UInt8.ofNat p.upvalues.length)).bind ((reads_bool strip).bind hbody))
  exact ⟨q, hchunk.of_eq (by simp only [dumpProto, List.append_assoc]) rfl⟩

theorem readChunk_fuel (fuel : Nat) (name blob : List UInt8) (h : blob.length < fuel) :
    readChunk (blob.length + 1) name blob = readChunk fuel name blob := by
  show (checkHeader blob).bind _ = (checkHeader blob).bind _
  cases hheader : checkHeader blob with
  | error e => rfl
  | ok r =>
      obtain ⟨u, s₁⟩ := r
      obtain ⟨bs₁, rfl, -⟩ := local_checkHeader.taken hheader
      show (getU8 s₁).bind _ = (getU8 s₁).bind _
      cases hnups : getU8 s₁ with
      | error e => rfl
      | ok r =>
          obtain ⟨n, s₂⟩ := r
          obtain ⟨bs₂, rfl, -⟩ := local_u8.taken hnups
          show (getBool s₂).bind _ = (getBool s₂).bind _
          cases hstrip : getBool s₂ with
          | error e => rfl
          | ok r =>
              obtain ⟨b, s₃⟩ := r
              obtain ⟨bs₃, rfl, -⟩ := local_bool.taken hstrip
              simp only [List.length_append] at h ⊢
              exact readProto_fuel _ _ name s₃ (by omega) (by omega)

/-! ## Truncation -/

/-- No blob is read that was cut off, and the whole one is read to its end. -/
structure RejectsTruncation (p : Proto) (strip : Bool) (name : List UInt8) : Prop where
  cut : ∀ blob rest, dumpProto p strip = blob ++ rest → rest ≠ [] →
    undumpProto blob name =
      .error (if blob = [] then "not a binary chunk" else "truncated")
  whole : ∃ q, undumpProto (dumpProto p strip) name = .ok q ∧
    readChunk ((dumpProto p strip).length + 1) name (dumpProto p strip) = .ok (q, [])

theorem isProtoDump_cut {p : Proto} {strip : Bool} {blob rest : List UInt8}
    (h : dumpProto p strip = blob ++ rest) (hne : blob ≠ []) : isProtoDump blob = true := by
  obtain ⟨b, bs, rfl⟩ := List.exists_cons_of_ne_nil hne
  have hhead : (dumpProto p strip).head? = some 27 := rfl
  rw [h] at hhead
  simpa [isProtoDump] using hhead

/-- The counts that are written, without what a strip takes away, have to fit. -/
theorem truncation_rejected (p : Proto) (strip : Bool) (name : List UInt8)
    (hfits : (p.keep strip).Fits) : RejectsTruncation p strip name where
  cut blob rest hblob hrest := by
    by_cases hne : blob = []
    · rw [if_pos hne, hne]
      rfl
    · obtain ⟨q, hreads⟩ := readable_chunk strip name hfits
      have hcut := (local_chunk _ name).cut hreads hblob hrest
      have hlen : blob.length < (dumpProto p strip).length + 1 := by
        rw [hblob, List.length_append]
        omega
      rw [undumpProto, isProtoDump_cut hblob hne, readChunk_fuel _ name blob hlen, hcut, if_neg hne]
      rfl
  whole := by
    obtain ⟨q, hreads⟩ := readable_chunk strip name hfits
    refine ⟨q, ?_, hreads.run⟩
    rw [undumpProto, if_neg (by rw [dumpProto]; exact Bool.false_ne_true), hreads.run]
    rfl

theorem truncation_rejected_nested : RejectsTruncation nestedProto true [61, 63] :=
  truncation_rejected nestedProto true [61, 63] (fits_keep true nestedProto nestedProto_fits)

/-! ## A long string -/

def zerosRead : List UInt8 :=
  header ++ [0, 0] ++ (putInt 0 ++ putBool false ++ putInt 0 ++ putSize 0 ++ putSize 1 ++ [4] ++
    List.replicate 32 0)

/-- The length is written as 0, and zeros of the string are read as all that follows. -/
theorem dump_zeros (k : Nat) (hsize : putSize (28 + k) = [0, 0, 0, 0]) (source : List UInt8) :
    ∃ rest, dumpProto { constants := [.string (List.replicate (28 + k) 0)], source } false =
      zerosRead ++ (List.replicate k 0 ++ rest) := by
  have hstring : putStr (List.replicate (28 + k) 0) =
      List.replicate 32 0 ++ List.replicate k 0 := by
    rw [putStr, List.length_replicate, hsize, List.replicate_add, ← List.append_assoc]
    rfl
  refine ⟨writeSource source none ++ (putInt 0 ++ (putInt 0 ++ (putSize 0 ++
    writeTail false {}))), ?_⟩
  simp only [dumpProto, writeProto, writeHead, putAll, writeConst, List.flatMap_cons,
    List.flatMap_nil, hstring, zerosRead, writeProtos, List.append_assoc, List.length_nil,
    List.length_cons, List.append_nil, List.nil_append, List.cons_append, effectiveSource]
  rfl

theorem zeros_truncated (k : Nat) (hk : k ≠ 0) (hsize : putSize (28 + k) = [0, 0, 0, 0])
    (source : List UInt8) :
    ¬ RejectsTruncation { constants := [.string (List.replicate (28 + k) 0)], source } false
      [] := by
  intro h
  obtain ⟨rest, hdump⟩ := dump_zeros k hsize source
  have hcut := h.cut zerosRead _ hdump (by simp [hk])
  have hread : (undumpProto zerosRead []).toBool = true := by decide +kernel
  rw [hcut] at hread
  exact nomatch hread

/-- A part of the blob is read as a function with another constant. -/
theorem longConstant_truncated : ¬ RejectsTruncation longConstant false [] := by
  have hlong : 2 ^ 32 = 28 + (2 ^ 32 - 28) := by decide
  have hsize : putSize (28 + (2 ^ 32 - 28)) = [0, 0, 0, 0] := by
    rw [← hlong]
    decide
  rw [longConstant, hlong]
  exact zeros_truncated (2 ^ 32 - 28) (by decide) hsize [61, 102]

end Luatier.Dump
