import Luatier.Stdlib.Dump

/-!
# Reading back what was dumped

Each writer is undone by the reader of its name, as long as the counts that it
writes fit in 32 bits.  Nothing else can be read back, since a reader never
answers with more.
-/

namespace Luatier.Dump

open Binary64 Codec Codec.Reader

/-! ## Words -/

theorem putWord_eq (n : Nat) {w : Nat} (hw : 8 ≤ w) (v : BitVec w) :
    putWord n v = Codec.bytes n v.toNat := by
  rw [putWord, bytes_eq_map]
  congr 1
  funext i
  apply UInt8.toNat_inj.mp
  have hmask : (255 : Nat) % 2 ^ w = 255 := by
    apply Nat.mod_eq_of_lt
    exact Nat.lt_of_lt_of_le (by decide) (Nat.pow_le_pow_right (by decide) hw)
  have hlow (x : Nat) : x &&& 255 = x % 256 := Nat.and_two_pow_sub_one_eq_mod x 8
  show (((v >>> (i * 8)) &&& 0xFF).setWidth 8).toNat = _
  simp [hmask, hlow, Nat.shiftRight_eq_div_pow, Nat.pow_mul, mul_comm i 8]

theorem joinBytes_toNat {w : Nat} (bs : List UInt8) (v : BitVec w) (i : Nat)
    (hfit : 8 * (i + bs.length) ≤ w) (hv : v.toNat < 256 ^ i) :
    (joinBytes v i bs).toNat = v.toNat + 256 ^ i * Codec.value bs := by
  induction bs generalizing v i with
  | nil => rfl
  | cons b bs ih =>
      have hb := b.toNat_lt
      rw [List.length_cons] at hfit
      have hpow : (256 : Nat) ^ i = 2 ^ (i * 8) := by
        rw [mul_comm, Nat.pow_mul]
      have hshift : (b.toBitVec.setWidth w <<< (i * 8)).toNat = 2 ^ (i * 8) * b.toNat := by
        have hsmall : b.toNat * 2 ^ (i * 8) < 2 ^ w := by
          calc b.toNat * 2 ^ (i * 8) < 2 ^ 8 * 2 ^ (i * 8) :=
                (Nat.mul_lt_mul_right (by positivity)).mpr hb
            _ = 2 ^ (8 + i * 8) := (Nat.pow_add ..).symm
            _ ≤ 2 ^ w := Nat.pow_le_pow_right (by decide) (by omega)
        have hbw : b.toNat < 2 ^ w :=
          lt_of_lt_of_le hb (Nat.pow_le_pow_right (by decide) (by omega))
        rw [BitVec.toNat_shiftLeft, BitVec.toNat_setWidth, UInt8.toNat_toBitVec,
          Nat.mod_eq_of_lt hbw, Nat.shiftLeft_eq, Nat.mod_eq_of_lt hsmall, mul_comm]
      have hnext : (v ||| (b.toBitVec.setWidth w <<< (i * 8))).toNat =
          v.toNat + 256 ^ i * b.toNat := by
        rw [BitVec.toNat_or, hshift, Nat.or_comm, ← Nat.two_pow_add_eq_or_of_lt (by
          rwa [← hpow]), ← hpow, Nat.add_comm]
      have hlt : v.toNat + 256 ^ i * b.toNat < 256 ^ (i + 1) := by
        rw [pow_succ]
        nlinarith
      rw [joinBytes, ih _ _ (by omega) (by rwa [hnext]), hnext, value, pow_succ]
      ring

/-! ## Reading back -/

theorem reads_u8 (b : UInt8) : Reads getU8 [b] b := fun _ => rfl

theorem reads_bytes (s : List UInt8) : Reads (getBytes s.length) s s := by
  intro rest
  rw [getBytes, if_neg (by rw [List.length_append]; omega), List.take_left, List.drop_left]

theorem times_eq_getBytes (bs : List UInt8) : Reads (times getU8 bs.length) bs bs := by
  have h : Reads (times getU8 bs.length) (bs.flatMap fun b => [b]) (bs.map id) :=
    reads_times bs fun b _ => reads_u8 b
  rwa [List.map_id, List.flatMap_singleton'] at h

theorem reads_word (n w : Nat) (hw : w = 8 * n) (hn : 0 < n) (v : BitVec w) :
    Reads (getWord n w) (putWord n v) v := by
  have hpow : 256 ^ n = 2 ^ w := by
    rw [hw, Nat.pow_mul]
  have hjoin : joinBytes 0 0 (Codec.bytes n v.toNat) = v := by
    apply BitVec.eq_of_toNat_eq
    rw [joinBytes_toNat _ _ _ (by rw [length_bytes]; omega) Nat.one_pos,
      value_bytes_of_lt (by rw [hpow]; exact v.isLt)]
    exact (Nat.zero_add _).trans (Nat.one_mul _)
  rw [putWord_eq n (by omega)]
  have hbytes := times_eq_getBytes (Codec.bytes n v.toNat)
  rw [length_bytes] at hbytes
  exact (hbytes.bind_pure (f := joinBytes 0 0)).of_eq rfl hjoin.symm

theorem reads_u32 (v : UInt32) : Reads getU32 (putU32 v) v :=
  (reads_word 4 32 rfl (by decide) v.toBitVec).bind_pure

theorem reads_u64 (v : UInt64) : Reads getU64 (putU64 v) v :=
  (reads_word 8 64 rfl (by decide) v.toBitVec).bind_pure

theorem reads_int (n : Int32) : Reads getInt (putInt n) n :=
  (reads_u32 n.toUInt32).bind_pure

theorem reads_i64 (n : Int64) : Reads getI64 (putI64 n) n :=
  (reads_u64 n.toUInt64).bind_pure

theorem reads_bool (b : Bool) : Reads getBool (putBool b) b := by
  cases b with
  | false => exact (reads_u8 0).bind_pure
  | true => exact (reads_u8 1).bind_pure

def SizeFits (n : Nat) : Prop := n < 2 ^ 32

theorem sizeFits_nil {α : Type} : SizeFits ([] : List α).length := Nat.two_pow_pos 32

theorem reads_size {n : Nat} (hn : SizeFits n) : Reads getU32 (putSize n) (UInt32.ofNat n) ∧
    (UInt32.ofNat n).toNat = n :=
  ⟨reads_u32 _, UInt32.toNat_ofNat_of_lt' hn⟩

theorem reads_str {s : List UInt8} (hs : SizeFits s.length) : Reads getStr (putStr s) s := by
  obtain ⟨hsize, hn⟩ := reads_size hs
  refine hsize.bind ?_
  rw [hn]
  exact reads_bytes s

theorem reads_all {α : Type} {get : ByteReader α} {put : α → List UInt8} {f : α → α}
    (xs : List α) (hxs : SizeFits xs.length) (h : ∀ x ∈ xs, Reads get (put x) (f x)) :
    Reads (getAll get) (putAll put xs) (xs.map f) := by
  obtain ⟨hsize, hn⟩ := reads_size hxs
  refine hsize.bind ?_
  rw [hn]
  exact reads_times xs h

theorem reads_all_self {α : Type} {get : ByteReader α} {put : α → List UInt8}
    (xs : List α) (hxs : SizeFits xs.length) (h : ∀ x ∈ xs, Reads get (put x) x) :
    Reads (getAll get) (putAll put xs) xs :=
  (reads_all (f := id) xs hxs h).of_eq rfl (List.map_id xs).symm

/-! ## The parts of a prototype -/

def Const.Fits : Const → Prop
  | .string s => SizeFits s.length
  | _ => True

theorem reads_const {k : Const} (hk : k.Fits) : Reads readConst (writeConst k) k := by
  refine (reads_u8 k.tag).bind ?_
  cases k with
  | nil => exact reads_pure _
  | bool b => exact (reads_bool b).bind_pure
  | int n => exact (reads_i64 n).bind_pure
  | float w => exact (reads_u64 w).bind_pure
  | string s => exact (reads_str hk).bind_pure

def keepUpval (strip : Bool) (uv : UpvalDesc) : UpvalDesc :=
  { uv with name := if strip then [] else uv.name }

theorem reads_upval (strip : Bool) {uv : UpvalDesc} (hname : SizeFits uv.name.length) :
    Reads readUpval (writeUpval strip uv) (keepUpval strip uv) := by
  have hkept : SizeFits (if strip then [] else uv.name).length := by
    cases strip with
    | true => exact sizeFits_nil
    | false => exact hname
  exact (reads_bool uv.instack).bind ((reads_u8 uv.idx).bind (reads_str hkept).bind_pure)

theorem reads_locVar {lv : LocVar} (hname : SizeFits lv.name.length) :
    Reads readLocVar (writeLocVar lv) lv := by
  have h := (reads_str hname).bind (f := fun name => do
    let reg ← getInt
    let startpc ← getInt
    let endpc ← getInt
    pure ({ name, reg, startpc, endpc } : LocVar))
    ((reads_int lv.reg).bind ((reads_int lv.startpc).bind (reads_int lv.endpc).bind_pure))
  exact h.of_eq (by simp only [writeLocVar, List.append_assoc]) rfl

/-- The counts of a prototype by itself. -/
structure Proto.OwnFits (p : Proto) : Prop where
  code : SizeFits p.code.length
  constants : SizeFits p.constants.length ∧ ∀ k ∈ p.constants, k.Fits
  source : SizeFits p.source.length
  protos : SizeFits p.protos.length
  upvalues : SizeFits p.upvalues.length ∧ ∀ uv ∈ p.upvalues, SizeFits uv.name.length
  lineinfo : SizeFits p.lineinfo.length
  locvars : SizeFits p.locvars.length ∧ ∀ lv ∈ p.locvars, SizeFits lv.name.length

theorem sizeFits_effectiveSource (strip : Bool) {source : List UInt8}
    (h : SizeFits source.length) : SizeFits (effectiveSource strip source).length := by
  cases strip with
  | true => show (2 : Nat) < 2 ^ 32; decide
  | false => exact h

structure SourceRead (strip : Bool) (source : List UInt8)
    (parentSource : Option (List UInt8)) (name : List UInt8) : Prop where
  nonempty : effectiveSource strip source ≠ []
  inherited : parentSource = some (effectiveSource strip source) →
    name = effectiveSource strip source

theorem SourceRead.reads {strip : Bool} {source : List UInt8}
    {parentSource : Option (List UInt8)} {name : List UInt8}
    (h : SourceRead strip source parentSource name) (hfits : SizeFits source.length) :
    ∃ src, Reads getStr (writeSource (effectiveSource strip source) parentSource) src ∧
      (if src.isEmpty then name else src) = effectiveSource strip source := by
  have hsize := sizeFits_effectiveSource strip hfits
  unfold writeSource
  by_cases hp : parentSource = some (effectiveSource strip source)
  · refine ⟨[], ?_, h.inherited hp⟩
    rw [if_pos hp]
    exact reads_str sizeFits_nil
  · refine ⟨effectiveSource strip source, ?_, if_neg ?_⟩
    · rw [if_neg hp]
      exact reads_str hsize
    · exact fun hempty => h.nonempty (List.isEmpty_iff.mp hempty)

/-- A prototype without what a strip takes away, and without nested ones. -/
def Proto.head (strip : Bool) (p : Proto) : Proto :=
  { p with
    source := effectiveSource strip p.source
    protos := []
    upvalues := []
    lineinfo := []
    locvars := [] }

theorem reads_head_of {strip : Bool} {p : Proto} {parentSource : Option (List UInt8)}
    {src : List UInt8} (name : List UInt8)
    (hread : Reads getStr (writeSource (effectiveSource strip p.source) parentSource) src)
    (hfits : p.OwnFits) :
    Reads (readHead name) (writeHead strip parentSource p)
      { p.head strip with source := if src.isEmpty then name else src } := by
  have hcode := reads_all_self p.code hfits.code fun v _ => reads_u32 v
  have hconsts := reads_all_self p.constants hfits.constants.1
    fun k hk => reads_const (hfits.constants.2 k hk)
  have hall := (reads_int p.numparams).bind (f := fun numparams => do
      let isVararg ← getBool
      let maxstack ← getInt
      let code ← getAll getU32
      let constants ← getAll readConst
      let src ← getStr
      let linedefined ← getInt
      let lastlinedefined ← getInt
      pure ({ numparams, isVararg, maxstack, code, constants, linedefined, lastlinedefined
              source := if src.isEmpty then name else src } : Proto))
    ((reads_bool p.isVararg).bind ((reads_int p.maxstack).bind (hcode.bind (hconsts.bind
      (hread.bind ((reads_int p.linedefined).bind
        (reads_int p.lastlinedefined).bind_pure))))))
  refine hall.of_eq ?_ rfl
  simp only [writeHead, List.append_assoc]

theorem reads_head {strip : Bool} {p : Proto} {parentSource : Option (List UInt8)}
    {name : List UInt8} (h : SourceRead strip p.source parentSource name)
    (hfits : p.OwnFits) :
    Reads (readHead name) (writeHead strip parentSource p) (p.head strip) := by
  obtain ⟨src, hread, hsrc⟩ := h.reads hfits.source
  have hhead := reads_head_of name hread hfits
  rwa [hsrc] at hhead

def Proto.withTail (strip : Bool) (p head : Proto) : Proto :=
  { head with
    upvalues := p.upvalues.map (keepUpval strip)
    lineinfo := if strip then [] else p.lineinfo
    locvars := if strip then [] else p.locvars }

theorem reads_tail (strip : Bool) {p head : Proto} (hfits : p.OwnFits) :
    Reads (readTail head) (writeTail strip p) (p.withTail strip head) := by
  have hups : Reads (getAll readUpval) (putAll (writeUpval strip) p.upvalues)
      (p.upvalues.map (keepUpval strip)) :=
    reads_all p.upvalues hfits.upvalues.1
      fun uv huv => reads_upval strip (hfits.upvalues.2 uv huv)
  refine hups.bind ?_
  cases strip with
  | true =>
      have hline : Reads (getAll getInt) (putAll putInt []) [] :=
        reads_all_self [] sizeFits_nil fun n hn => nomatch hn
      have hloc : Reads (getAll readLocVar) (putAll writeLocVar []) [] :=
        reads_all_self [] sizeFits_nil fun lv hlv => nomatch hlv
      exact hline.bind hloc.bind_pure
  | false =>
      have hline := reads_all_self p.lineinfo hfits.lineinfo fun n _ => reads_int n
      have hloc := reads_all_self p.locvars hfits.locvars.1
        fun lv hlv => reads_locVar (hfits.locvars.2 lv hlv)
      exact hline.bind hloc.bind_pure

/-! ## The tree -/

mutual

def Proto.All (P : Proto → Prop) : Proto → Prop
  | p@⟨_, _, _, _, _, _, _, _, protos, _, _, _⟩ => P p ∧ allIn P protos

def allIn (P : Proto → Prop) : List Proto → Prop
  | [] => True
  | p :: ps => p.All P ∧ allIn P ps

end

abbrev Proto.Fits : Proto → Prop := Proto.All Proto.OwnFits

mutual

/-- A tree as it is read back: a strip takes the debug information away. -/
def Proto.keep (strip : Bool) : Proto → Proto
  | ⟨numparams, isVararg, maxstack, code, constants, source, linedefined,
      lastlinedefined, protos, upvalues, lineinfo, locvars⟩ =>
    { numparams, isVararg, maxstack, code, constants, linedefined, lastlinedefined
      source := effectiveSource strip source
      protos := keepAll strip protos
      upvalues := upvalues.map (keepUpval strip)
      lineinfo := if strip then [] else lineinfo
      locvars := if strip then [] else locvars }

def keepAll (strip : Bool) : List Proto → List Proto
  | [] => []
  | p :: ps => p.keep strip :: keepAll strip ps

end

abbrev Proto.stripDebug : Proto → Proto := Proto.keep true

theorem keepUpval_false : keepUpval false = id := rfl

mutual

theorem keep_false : ∀ p : Proto, p.keep false = p
  | ⟨_, _, _, _, _, _, _, _, protos, upvalues, _, _⟩ => by
      rw [Proto.keep, keepAll_false protos, keepUpval_false, List.map_id]
      rfl

theorem keepAll_false : ∀ ps : List Proto, keepAll false ps = ps
  | [] => rfl
  | p :: ps => by rw [keepAll, keep_false p, keepAll_false ps]

end

theorem reads_protos {get : ByteReader Proto} {strip : Bool}
    {parentSource : Option (List UInt8)} (ps : List Proto)
    (h : ∀ p ∈ ps, Reads get (writeProto strip parentSource p) (p.keep strip)) :
    Reads (times get ps.length) (writeProtos strip parentSource ps) (keepAll strip ps) := by
  induction ps with
  | nil => exact reads_pure []
  | cons p ps ih =>
      have hp := h p (List.mem_cons_self ..)
      exact hp.bind (ih fun q hq => h q (List.mem_cons_of_mem p hq)).bind_pure

theorem allIn_mem {P : Proto → Prop} {ps : List Proto} (h : allIn P ps) {p : Proto}
    (hp : p ∈ ps) : p.All P := by
  induction ps with
  | nil => exact nomatch hp
  | cons q ps ih =>
      obtain ⟨hq, hps⟩ := h
      rcases List.mem_cons.mp hp with rfl | hp
      · exact hq
      · exact ih hps hp

theorem length_writeProtos (strip : Bool) (parentSource : Option (List UInt8))
    {ps : List Proto} {p : Proto} (hp : p ∈ ps) :
    (writeProto strip parentSource p).length ≤
      (writeProtos strip parentSource ps).length := by
  induction ps with
  | nil => exact nomatch hp
  | cons q ps ih =>
      rw [writeProtos, List.length_append]
      rcases List.mem_cons.mp hp with rfl | hp
      · exact Nat.le_add_right ..
      · exact Nat.le_trans (ih hp) (Nat.le_add_left ..)

def SameSource (strip : Bool) (source : List UInt8) (p : Proto) : Prop :=
  strip = true ∨ p.All (·.source = source)

theorem reads_proto (strip : Bool) (fuel : Nat) : ∀ {p : Proto}
    {parentSource : Option (List UInt8)} {name : List UInt8}, p.Fits →
    SameSource strip p.source p → SourceRead strip p.source parentSource name →
    (writeProto strip parentSource p).length < fuel →
    Reads (readProto fuel name) (writeProto strip parentSource p) (p.keep strip) := by
  induction fuel with
  | zero => exact fun _ _ _ h => absurd h (Nat.not_lt_zero _)
  | succ fuel ih =>
      intro p parentSource name hfits hsame hsource hlen
      obtain ⟨numparams, isVararg, maxstack, code, constants, source, linedefined,
        lastlinedefined, protos, upvalues, lineinfo, locvars⟩ := p
      obtain ⟨hown, hins⟩ := hfits
      have hchildren : ∀ q ∈ protos, Reads
          (readProto fuel (effectiveSource strip source))
          (writeProto strip (some (effectiveSource strip source)) q) (q.keep strip) := by
        intro q hq
        have heff : effectiveSource strip q.source = effectiveSource strip source ∧
            SameSource strip q.source q := by
          rcases hsame with hstrip | hall
          · rw [hstrip]
            exact ⟨rfl, Or.inl rfl⟩
          · have hqall := allIn_mem hall.2 hq
            have hqs : q.source = source := by
              obtain ⟨_, _, _, _, _, _, _, _, _, _, _, _⟩ := q
              exact hqall.1
            rw [hqs]
            exact ⟨rfl, Or.inr hqall⟩
        refine ih (allIn_mem hins hq) heff.2 ⟨?_, fun _ => heff.1.symm⟩ ?_
        · rw [heff.1]
          exact hsource.nonempty
        · have hle := length_writeProtos strip
            (some (effectiveSource strip source)) hq
          simp only [writeProto, List.length_append] at hlen
          have hhead : 0 < (putSize protos.length).length := by
            rw [putSize, putU32, putWord_eq 4 (by decide), length_bytes]
            decide
          omega
      have hhead := reads_head (p := ⟨numparams, isVararg, maxstack, code, constants, source,
        linedefined, lastlinedefined, [], upvalues, lineinfo, locvars⟩) hsource
        ⟨hown.code, hown.constants, hown.source, sizeFits_nil, hown.upvalues,
          hown.lineinfo, hown.locvars⟩
      obtain ⟨hsize, hn⟩ := reads_size hown.protos
      have hins' : Reads (getAll (readProto fuel (effectiveSource strip source)))
          (putSize protos.length ++
            writeProtos strip (some (effectiveSource strip source)) protos)
          (keepAll strip protos) := by
        refine hsize.bind ?_
        rw [hn]
        exact reads_protos protos hchildren
      have hall := hhead.bind (f := fun p => do
        let protos ← getAll (readProto fuel p.source)
        readTail { p with protos }) (hins'.bind (reads_tail strip hown))
      refine hall.of_eq ?_ rfl
      rw [writeProto]
      simp only [List.append_assoc]
      rfl

/-! ## The header -/

theorem reads_expectByte (b : UInt8) (what : String) : Reads (expectByte b what) [b] () := by
  refine (reads_u8 b).bind_silent ?_
  rw [if_pos rfl]
  exact reads_pure ()

theorem reads_expectBytes (what : String) (bs : List UInt8) :
    Reads (expectBytes what bs) bs () := by
  induction bs with
  | nil => exact reads_pure ()
  | cons b bs ih => exact (reads_expectByte b what).bind ih

theorem reads_expectI64 (n : Int64) (what : String) :
    Reads (expectI64 n what) (putI64 n) () := by
  refine (reads_i64 n).bind_silent ?_
  rw [if_pos rfl]
  exact reads_pure ()

theorem reads_expectF64 {w : Word} (hw : (decode w).eq (decode w) = true) (what : String) :
    Reads (expectF64 w what) (putF64 w) () := by
  refine (reads_u64 w).bind_silent ?_
  rw [if_pos hw]
  exact reads_pure ()

theorem reads_checkHeader : Reads checkHeader header () := by
  have hnum : (decode luacNum).eq (decode luacNum) = true := by decide +kernel
  have hsizes := (reads_expectByte 8 "lua_Number size mismatch").bind (f := fun _ => do
      expectI64 luacInt "endianness mismatch"
      expectF64 luacNum "float format mismatch")
    ((reads_expectI64 luacInt "endianness mismatch").bind
      (reads_expectF64 hnum "float format mismatch"))
  exact (reads_expectBytes "not a binary chunk" luaSig).bind
    ((reads_expectByte luacVersion "version mismatch").bind
    ((reads_expectByte luacFormat "format mismatch").bind
    ((reads_expectBytes "corrupted" luacData).bind
    ((reads_expectByte 4 "int size mismatch").bind
    ((reads_expectByte 8 "size_t size mismatch").bind
    ((reads_expectByte 4 "instruction size mismatch").bind
    ((reads_expectByte 8 "lua_Integer size mismatch").bind hsizes)))))))

theorem undumpProto_dumpProto {p : Proto} {strip : Bool} (hfits : p.Fits)
    (hne : p.source ≠ []) (hsame : SameSource strip p.source p) (name : List UInt8) :
    undumpProto (dumpProto p strip) name = .ok (p.keep strip) := by
  have hsource : SourceRead strip p.source none name := by
    refine ⟨?_, fun h => nomatch h⟩
    cases strip with
    | true => exact List.cons_ne_nil _ _
    | false => exact hne
  have hbody := reads_proto strip ((dumpProto p strip).length + 1) hfits hsame hsource (by
    simp only [dumpProto, List.length_append]
    omega)
  have hchunk : Reads (readChunk ((dumpProto p strip).length + 1) name)
      (dumpProto p strip) (p.keep strip) := by
    have h := reads_checkHeader.bind (f := fun _ => do
        let _nups ← getU8
        let _strip ← getBool
        readProto ((dumpProto p strip).length + 1) name)
      ((reads_u8 (UInt8.ofNat p.upvalues.length)).bind ((reads_bool strip).bind hbody))
    exact h.of_eq (by simp only [dumpProto, List.append_assoc]) rfl
  rw [undumpProto, if_neg (by rw [dumpProto]; exact Bool.false_ne_true), hchunk.run]
  rfl

/-! ## What can be read -/

theorem answers_size {α : Type} {get : ByteReader α} {P : α → Prop} (h : Answers get P) :
    Answers (getAll get) fun xs => SizeFits xs.length ∧ ∀ x ∈ xs, P x := by
  refine .andThen fun n => ?_
  intro s xs s' hrun
  obtain ⟨hlen, hall⟩ := answers_times h n.toNat s xs s' hrun
  exact ⟨hlen ▸ n.toNat_lt, hall⟩

theorem answers_str : Answers getStr fun s => SizeFits s.length := by
  refine .andThen fun n => ?_
  intro s x s' hrun
  unfold getBytes at hrun
  split at hrun
  · exact nomatch hrun
  · cases hrun
    exact Nat.lt_of_le_of_lt (List.length_take_le ..) n.toNat_lt

theorem answers_const : Answers readConst Const.Fits := by
  refine .andThen fun tag => ?_
  unfold readConstOf
  split
  · exact answers_pure trivial
  · exact .andThen fun b => answers_pure trivial
  · exact .andThen fun n => answers_pure trivial
  · exact .andThen fun w => answers_pure trivial
  · exact answers_str.bind fun s hs => answers_pure hs
  · exact fun _ _ _ h => nomatch h

theorem answers_upval : Answers readUpval fun uv => SizeFits uv.name.length :=
  .andThen fun _ => .andThen fun _ => answers_str.bind fun _ hname => answers_pure hname

theorem answers_locVar : Answers readLocVar fun lv => SizeFits lv.name.length :=
  answers_str.bind fun _ hname =>
    .andThen fun _ => .andThen fun _ => .andThen fun _ => answers_pure hname

def HeadFits (p : Proto) : Prop :=
  SizeFits p.code.length ∧ (SizeFits p.constants.length ∧ ∀ k ∈ p.constants, k.Fits) ∧
    SizeFits p.source.length

theorem answers_head {name : List UInt8} (hname : SizeFits name.length) :
    Answers (readHead name) HeadFits := by
  refine .andThen fun _ => .andThen fun _ => .andThen fun _ => ?_
  refine (answers_size (answers_any getU32)).bind fun code hcode => ?_
  refine (answers_size answers_const).bind fun constants hconsts => ?_
  refine answers_str.bind fun src hsrc => ?_
  refine .andThen fun _ => .andThen fun _ => answers_pure ⟨hcode.1, hconsts, ?_⟩
  show SizeFits (if src.isEmpty then name else src).length
  split
  · exact hname
  · exact hsrc

theorem allIn_of_mem {P : Proto → Prop} {ps : List Proto} (h : ∀ p ∈ ps, p.All P) :
    allIn P ps := by
  induction ps with
  | nil => trivial
  | cons p ps ih =>
      exact ⟨h p (List.mem_cons_self ..), ih fun q hq => h q (List.mem_cons_of_mem p hq)⟩

theorem answers_proto (fuel : Nat) : ∀ {name : List UInt8}, SizeFits name.length →
    Answers (readProto fuel name) Proto.Fits := by
  induction fuel with
  | zero => exact fun _ _ _ _ h => nomatch h
  | succ fuel ih =>
      intro name hname
      refine (answers_head hname).bind fun p hp => ?_
      refine (answers_size (ih hp.2.2)).bind fun protos hprotos => ?_
      refine (answers_size answers_upval).bind fun upvalues hups => ?_
      refine (answers_size (answers_any getInt)).bind fun lineinfo hline => ?_
      refine (answers_size answers_locVar).bind fun locvars hlocs => ?_
      refine answers_pure ⟨⟨hp.1, hp.2.1, hp.2.2, hprotos.1, hups, hline.1, hlocs⟩, ?_⟩
      exact allIn_of_mem hprotos.2

theorem fits_of_undumpProto {blob name : List UInt8} {p : Proto} (hname : SizeFits name.length)
    (h : undumpProto blob name = .ok p) : p.Fits := by
  unfold undumpProto at h
  split at h
  · exact nomatch h
  · cases hrun : readChunk (blob.length + 1) name blob with
    | error e => rw [hrun] at h; exact nomatch h
    | ok r =>
        rw [hrun] at h
        cases h
        have hchunk : Answers (readChunk (blob.length + 1) name) Proto.Fits :=
          .andThen fun _ => .andThen fun _ => .andThen fun _ => answers_proto _ hname
        exact hchunk blob r.1 r.2 hrun

/-! ## Round trips -/

/--
A tree compiled from one source is read back whole, and without its debug
information after a strip, exactly if all its counts fit in 32 bits.
-/
theorem undump_dump_iff (p : Proto) (hne : p.source ≠ [])
    (hshared : p.All (·.source = p.source)) :
    (∀ name, undumpProto (dumpProto p false) name = .ok p ∧
      undumpProto (dumpProto p true) name = .ok p.stripDebug) ↔ p.Fits := by
  constructor
  · intro h
    exact fits_of_undumpProto sizeFits_nil (h []).1
  · intro hfits name
    constructor
    · rw [undumpProto_dumpProto hfits hne (Or.inr hshared) name, keep_false]
    · exact undumpProto_dumpProto hfits hne (Or.inl rfl) name

def nestedProto : Proto where
  code := [38]
  constants := [.string [0, 255], .float 0x7FF8000000000000]
  source := [61, 102]
  protos := [{ source := [61, 102], lineinfo := [1], upvalues := [⟨true, 0, [95]⟩] }]

theorem nestedProto_fits : nestedProto.Fits := by
  have hleaf : ∀ n : Nat, n < 3 → SizeFits n := fun n hn => Nat.lt_trans hn (by decide)
  refine ⟨⟨hleaf 1 (by decide), ⟨hleaf 2 (by decide), ?_⟩, hleaf 2 (by decide),
    hleaf 1 (by decide), ⟨hleaf 0 (by decide), fun _ h => nomatch h⟩, hleaf 0 (by decide),
    ⟨hleaf 0 (by decide), fun _ h => nomatch h⟩⟩, ⟨?_, trivial⟩, trivial⟩
  · intro k hk
    rcases List.mem_cons.mp hk with rfl | hk
    · exact hleaf 2 (by decide)
    · rw [List.mem_singleton.mp hk]
      trivial
  · refine ⟨hleaf 0 (by decide), ⟨hleaf 0 (by decide), fun _ h => nomatch h⟩,
      hleaf 2 (by decide), hleaf 0 (by decide), ⟨hleaf 1 (by decide), ?_⟩,
      hleaf 1 (by decide), ⟨hleaf 0 (by decide), fun _ h => nomatch h⟩⟩
    intro uv huv
    rw [List.mem_singleton.mp huv]
    exact hleaf 1 (by decide)

theorem nestedProto_undumped :
    undumpProto (dumpProto nestedProto false) [61, 63] = .ok nestedProto ∧
      undumpProto (dumpProto nestedProto true) [61, 63] = .ok nestedProto.stripDebug := by
  have hshared : nestedProto.All (·.source = nestedProto.source) :=
    ⟨rfl, ⟨rfl, trivial⟩, trivial⟩
  exact (undump_dump_iff nestedProto (List.cons_ne_nil _ _) hshared).mpr nestedProto_fits [61, 63]

def longConstant : Proto where
  constants := [.string (List.replicate (2 ^ 32) 0)]
  source := [61, 102]

/-- The length of the string is written as 0. -/
theorem longConstant_lost :
    ¬ (undumpProto (dumpProto longConstant false) [] = .ok longConstant) := by
  intro h
  obtain ⟨hown, -⟩ := fits_of_undumpProto sizeFits_nil h
  have hlong : SizeFits (List.replicate (2 ^ 32) (0 : UInt8)).length :=
    hown.constants.2 _ (List.mem_cons_self ..)
  rw [List.length_replicate] at hlong
  exact Nat.lt_irrefl _ hlong

end Luatier.Dump
