import Mathlib.Data.List.TakeWhile
import Mathlib.Logic.Relation
import Luatier.Stdlib.PackSize

/-!
# Unpacking arbitrary data

Each round of `str_unpack` should consume the bytes that its option asks for, or
raise an error when they are not there.  The data itself says how many bytes a string
has: by a length in front of it, to which the position is added modulo 2^64, or by a
zero, which `strlen` also finds behind the data.
-/

namespace Luatier.Pack

/-! ## Rounds -/

/-- Where the loop of `str_unpack` stands. -/
structure UnpackConfig where
  header : PackHeader
  pos : Nat
  fmt : List UInt8

/-- The bytes that an option asks for: a string those of its length and the length
itself, a zero-terminated string those up to its zero.  There is no number where the
length is not one of 64 bits, or there is no zero. -/
def needed (islittle : Bool) (size : Nat) (data : List UInt8) (pos : Nat) :
    PackOpt → Option Nat
  | .string =>
      match unpackint ((data.drop pos).take size) islittle size false with
      | .ok len => some (size + len.toUInt64.toNat)
      | .error _ => none
  | .zstr =>
      if 0 ∈ data.drop pos then some (((data.drop pos).takeWhile (· ≠ 0)).length + 1) else none
  | _ => some size

def Details.needed (d : Details) (data : List UInt8) (pos : Nat) : Option Nat :=
  Pack.needed d.header.islittle d.size data (pos + d.ntoalign) d.opt

section Rounds

variable (host : Host) (data : List UInt8)

def Host.Next (x : UnpackConfig) (d : Details) : Prop :=
  ∃ c fmt, x.fmt = c :: fmt ∧ host.getdetails x.header x.pos c fmt = .ok d

def Host.UnpackStep (x y : UnpackConfig) : Prop :=
  ∃ d item, host.Next x d ∧ x.pos + d.ntoalign + d.size ≤ data.length ∧
    host.unpackItem d.header.islittle d.size data (x.pos + d.ntoalign) d.opt = .ok item ∧
    y = ⟨d.header, sizeT (x.pos + d.ntoalign + item.extra + d.size), d.rest⟩

/-- The loop comes to `x`. -/
def Host.Reached (fmt : List UInt8) (init : Option Int64) (x : UnpackConfig) : Prop :=
  unpackStart data.length init ≤ data.length ∧
    Relation.ReflTransGen (host.UnpackStep data)
      ⟨{ islittle := host.nativeLittle }, unpackStart data.length init, cstring fmt⟩ x

/-- Every round consumes the bytes that its option asks for, and these lie in the data;
data that is too short for an option is rejected; what is returned is a place of the
data or the one behind it. -/
structure Host.UnpackSafe (fmt : List UInt8) (init : Option Int64) : Prop where
  inside : ∀ x, host.Reached data fmt init x → x.pos ≤ data.length
  consumes : ∀ x y, host.Reached data fmt init x → host.UnpackStep data x y →
    ∃ d n, host.Next x d ∧ d.needed data x.pos = some n ∧
      y.pos = x.pos + d.ntoalign + n ∧ y.pos ≤ data.length
  rejects : ∀ x d, host.Reached data fmt init x → host.Next x d →
    (∀ n, d.needed data x.pos = some n → data.length < x.pos + d.ntoalign + n) →
      ∃ e, host.strUnpack fmt data init = .error e
  returns : ∀ rs, host.strUnpack fmt data init = .ok rs →
    ∃ n, rs.getLast? = some (.int n) ∧ 1 ≤ n.toInt ∧ n.toInt ≤ data.length + 1

/-- The option that comes next, if it is a string, has no length that makes the
position wrap, and, if it is a zero-terminated string, has its zero in the data. -/
def Host.Regular (x : UnpackConfig) : Prop :=
  ∀ d, host.Next x d → x.pos + d.ntoalign + d.size ≤ data.length →
    (d.opt = .string → ∀ len,
      unpackint ((data.drop (x.pos + d.ntoalign)).take d.size) d.header.islittle d.size false =
        .ok len → x.pos + d.ntoalign + d.size + len.toUInt64.toNat < 2 ^ 64) ∧
    (d.opt = .zstr → 0 ∈ data.drop (x.pos + d.ntoalign))

end Rounds

variable {host : Host} {x y : UnpackConfig} {d d' : Details} {data : List UInt8}

theorem Host.Next.eq (h : host.Next x d) (h' : host.Next x d') : d = d' := by
  obtain ⟨c, fmt, hfmt, hd⟩ := h
  obtain ⟨c', fmt', hfmt', hd'⟩ := h'
  rw [hfmt] at hfmt'
  cases hfmt'
  rw [hd] at hd'
  cases hd'
  rfl

theorem Host.Next.sized (h : host.Next x d) : Sized d.opt d.size := by
  obtain ⟨c, fmt, -, hd⟩ := h
  exact (getdetails_cases hd).1

/-! ## The loop goes from round to round -/

theorem unpackLoop_step (host : Host) (data : List UInt8) (results : List Value)
    (hnil : x.fmt ≠ []) :
    (∃ e, host.unpackLoop data x.header x.pos results x.fmt = .error e) ∨
      ∃ y results', host.UnpackStep data x y ∧
        host.unpackLoop data x.header x.pos results x.fmt =
          host.unpackLoop data y.header y.pos results' y.fmt := by
  obtain ⟨h, pos, fmt⟩ := x
  cases fmt with
  | nil => simp at hnil
  | cons c fmt =>
      rw [Host.unpackLoop]
      split
      · exact .inl ⟨_, rfl⟩
      · rename_i d hd
        split
        · exact .inl ⟨_, rfl⟩
        · rename_i hfits
          split
          · exact .inl ⟨_, rfl⟩
          · rename_i item hitem
            exact .inr ⟨_, results ++ item.value.toList,
              ⟨d, item, ⟨c, fmt, rfl, hd⟩, Nat.le_of_not_lt hfits, hitem, rfl⟩, rfl⟩

theorem unpackLoop_of_step (results : List Value) (hstep : host.UnpackStep data x y) :
    ∃ results', host.unpackLoop data x.header x.pos results x.fmt =
      host.unpackLoop data y.header y.pos results' y.fmt := by
  obtain ⟨d, item, ⟨c, fmt, hfmt, hd⟩, hfits, hitem, rfl⟩ := hstep
  exact ⟨results ++ item.value.toList, by rw [hfmt, unpackLoop_cons hd hfits hitem]⟩

theorem unpackLoop_of_path (results : List Value)
    (hpath : Relation.ReflTransGen (host.UnpackStep data) x y) :
    ∃ results', host.unpackLoop data x.header x.pos results x.fmt =
      host.unpackLoop data y.header y.pos results' y.fmt := by
  induction hpath with
  | refl => exact ⟨results, rfl⟩
  | tail _ hstep ih =>
      obtain ⟨results₁, hpath⟩ := ih
      obtain ⟨results₂, hlast⟩ := unpackLoop_of_step results₁ hstep
      exact ⟨results₂, hpath.trans hlast⟩

theorem unpackLoop_ends {results rs : List Value} {n : Nat}
    (hloop : host.unpackLoop data x.header x.pos results x.fmt = .ok (rs, n)) :
    ∃ y, Relation.ReflTransGen (host.UnpackStep data) x y ∧ y.pos = n := by
  induction hm : x.fmt.length using Nat.strongRecOn generalizing x results with
  | ind m ih =>
      by_cases hnil : x.fmt = []
      · rw [hnil, unpackLoop_nil] at hloop
        cases hloop
        exact ⟨x, .refl, rfl⟩
      · rcases unpackLoop_step host data results hnil with
          ⟨e, he⟩ | ⟨y, results', hstep, hnext⟩
        · simp [he] at hloop
        · have hshorter : y.fmt.length < x.fmt.length := by
            obtain ⟨d, item, ⟨c, fmt, hfmt, hd⟩, -, -, rfl⟩ := hstep
            have := Host.getdetails_length hd
            simp [hfmt]
            omega
          rw [hnext] at hloop
          obtain ⟨z, hpath, hz⟩ := ih _ (hm ▸ hshorter) hloop rfl
          exact ⟨z, .head hstep hpath, hz⟩

variable {fmt : List UInt8} {init : Option Int64}

theorem strUnpack_error (hreach : host.Reached data fmt init x) (hnil : x.fmt ≠ [])
    (hstuck : ∀ y, ¬ host.UnpackStep data x y) : ∃ e, host.strUnpack fmt data init = .error e := by
  obtain ⟨results, hloop⟩ := unpackLoop_of_path [] hreach.2
  simp only at hloop
  rcases unpackLoop_step host data results hnil with
    ⟨e, he⟩ | ⟨y, _, hstep, -⟩
  · refine ⟨e, ?_⟩
    simp [Host.strUnpack, Nat.not_lt.mpr hreach.1, hloop, he, bind, Except.bind]
  · exact absurd hstep (hstuck y)

theorem strUnpack_returns {rs : List Value} (h : host.strUnpack fmt data init = .ok rs) :
    ∃ x, host.Reached data fmt init x ∧ rs.getLast? = some (.int (Int64.ofNat (x.pos + 1))) := by
  simp only [Host.strUnpack] at h
  split at h
  · simp [throw, throwThe, MonadExceptOf.throw, bind, Except.bind] at h
  · rename_i hstart
    cases hloop : host.unpackLoop data { islittle := host.nativeLittle }
        (unpackStart data.length init) [] (cstring fmt) with
    | error e => simp [hloop, bind, Except.bind] at h
    | ok r =>
        obtain ⟨y, hpath, hy⟩ := unpackLoop_ends (x := ⟨{ islittle := host.nativeLittle },
          unpackStart data.length init, cstring fmt⟩) hloop
        simp only [hloop, bind, Except.bind, pure, Except.pure, Except.ok.injEq] at h
        exact ⟨y, ⟨Nat.le_of_not_lt hstart, hpath⟩, by simp [← h, hy]⟩

/-! ## Regular rounds -/

section Items

variable {islittle : Bool} {size pos : Nat} {opt : PackOpt} {item : Unpacked}

theorem unpackItem_extra_fixed (hfits : pos + size ≤ data.length)
    (hfixed : ¬ (opt = .string ∨ opt = .zstr))
    (hitem : host.unpackItem islittle size data pos opt = .ok item) : item.extra = 0 := by
  rcases unpackItem_fixed host islittle hfits hfixed with
    ⟨item', hitem', hextra⟩ | ⟨-, -, herror⟩
  · rw [hitem'] at hitem
    cases hitem
    exact hextra
  · simp [herror] at hitem

theorem unpackItem_string (host : Host) :
    host.unpackItem islittle size data pos .string = .ok item ↔
      ∃ len, unpackint ((data.drop pos).take size) islittle size false = .ok len ∧
        sizeT (pos + size + len.toUInt64.toNat) ≤ data.length ∧
        item = ⟨some (.str ((data.drop (pos + size)).take len.toUInt64.toNat)),
          len.toUInt64.toNat⟩ := by
  simp only [Host.unpackItem]
  cases unpackint ((data.drop pos).take size) islittle size false with
  | error e => simp [bind, Except.bind]
  | ok len =>
      simp only [bind, Except.bind, pure, Except.pure, throw, throwThe, MonadExceptOf.throw,
        Except.ok.injEq, exists_eq_left']
      split
      · rename_i hlarge
        simp [Nat.not_le.mpr hlarge]
      · rename_i hfits
        simp [Nat.le_of_not_lt hfits, eq_comm]

theorem needed_fixed (hfixed : ¬ (opt = .string ∨ opt = .zstr)) :
    needed islittle size data pos opt = some size := by
  cases opt <;> simp [needed] at hfixed ⊢

theorem takeWhile_lt_of_zero (hzero : 0 ∈ data.drop pos) :
    pos + ((data.drop pos).takeWhile (· ≠ 0)).length < data.length := by
  have hle := (List.takeWhile_prefix (· ≠ 0) (l := data.drop pos)).length_le
  have hne : (data.drop pos).takeWhile (· ≠ 0) ≠ data.drop pos := by
    intro hall
    simpa using List.takeWhile_eq_self_iff.mp hall 0 hzero
  have hlt : ((data.drop pos).takeWhile (· ≠ 0)).length ≠ (data.drop pos).length := fun heq =>
    hne ((List.takeWhile_prefix _).eq_of_length heq)
  simp only [List.length_drop] at hle hlt
  omega

end Items

theorem regular_consumes (hbound : data.length + 1 < 2 ^ 63) (hregular : host.Regular data x)
    (hstep : host.UnpackStep data x y) :
    ∃ d n, host.Next x d ∧ d.needed data x.pos = some n ∧
      y.pos = x.pos + d.ntoalign + n ∧ y.pos ≤ data.length := by
  obtain ⟨d, item, hnext, hfits, hitem, rfl⟩ := hstep
  obtain ⟨hstring, hzstr⟩ := hregular d hnext hfits
  by_cases hopt : d.opt = .string
  · rw [hopt] at hitem
    obtain ⟨len, hlen, hcheck, rfl⟩ := (unpackItem_string host).mp hitem
    have hsum := hstring hopt len hlen
    rw [sizeT_of_lt hsum] at hcheck
    refine ⟨d, d.size + len.toUInt64.toNat, hnext, by simp [Details.needed, needed, hopt, hlen],
      ?_⟩
    simp only
    rw [sizeT_of_lt] <;> omega
  · by_cases hz : d.opt = .zstr
    · have hzero := hzstr hz
      have hsize : d.size = 0 := by
        have := hnext.sized
        rwa [hz] at this
      have hlt := takeWhile_lt_of_zero hzero
      rw [hz] at hitem
      cases hitem
      refine ⟨d, _, hnext, by rw [Details.needed, hz, needed, if_pos hzero], ?_⟩
      simp only
      rw [sizeT_of_lt] <;> omega
    · have hfixed : ¬ (d.opt = .string ∨ d.opt = .zstr) := by simp [hopt, hz]
      have hextra := unpackItem_extra_fixed hfits hfixed hitem
      refine ⟨d, d.size, hnext, needed_fixed hfixed, ?_⟩
      simp only [hextra]
      rw [sizeT_of_lt] <;> omega

theorem regular_of_consumes (hconsumes : ∀ y, host.UnpackStep data x y →
      ∃ d n, host.Next x d ∧ d.needed data x.pos = some n ∧
        y.pos = x.pos + d.ntoalign + n ∧ y.pos ≤ data.length)
    (hbound : data.length + 1 < 2 ^ 63) : host.Regular data x := by
  intro d hnext hfits
  constructor
  · intro hopt len hlen
    by_contra hwrap
    have hlt := len.toUInt64.toNat_lt
    have hcheck : sizeT (x.pos + d.ntoalign + d.size + len.toUInt64.toNat) ≤ data.length := by
      simp only [sizeT]
      omega
    have hitem := (unpackItem_string host).mpr ⟨len, hlen, hcheck, rfl⟩
    obtain ⟨d', n, hnext', hneeded, hpos, hin⟩ :=
      hconsumes _ ⟨d, _, hnext, hfits, by rw [hopt]; exact hitem, rfl⟩
    obtain rfl := hnext.eq hnext'
    simp only [Details.needed, needed, hopt, hlen, Option.some.injEq] at hneeded
    omega
  · intro hopt
    by_contra hzero
    obtain ⟨d', n, hnext', hneeded, -⟩ :=
      hconsumes _ ⟨d, _, hnext, hfits, by rw [hopt]; rfl, rfl⟩
    obtain rfl := hnext.eq hnext'
    simp [Details.needed, needed, hopt, hzero] at hneeded

theorem reached_inside (hbound : data.length + 1 < 2 ^ 63)
    (hregular : ∀ x, host.Reached data fmt init x → host.Regular data x)
    (hreach : host.Reached data fmt init x) : x.pos ≤ data.length := by
  obtain ⟨hstart, hpath⟩ := hreach
  induction hpath with
  | refl => exact hstart
  | tail hpath hstep _ =>
      obtain ⟨d, n, -, -, -, hin⟩ :=
        regular_consumes hbound (hregular _ ⟨hstart, hpath⟩) hstep
      exact hin

/-- `string.unpack` is safe exactly when no round comes to a string whose stored length
makes the position wrap, or to a zero-terminated string without its zero. -/
theorem unpack_safe_iff (host : Host) (fmt : List UInt8) (data : StringView)
    (init : Option Int64) :
    host.UnpackSafe data fmt init ↔
      ∀ x, host.Reached data fmt init x → host.Regular data x := by
  constructor
  · intro hsafe x hreach
    exact regular_of_consumes (fun y => hsafe.consumes x y hreach) data.2
  · intro hregular
    have hconsumes := fun x y hreach =>
      regular_consumes (x := x) (y := y) data.2 (hregular x hreach)
    refine ⟨fun x => reached_inside data.2 hregular, hconsumes, ?_, ?_⟩
    · intro x d hreach hnext hshort
      apply strUnpack_error hreach
      · obtain ⟨c, fmt, hfmt, -⟩ := hnext
        simp [hfmt]
      · intro y hstep
        obtain ⟨d', n, hnext', hneeded, hpos, hin⟩ := hconsumes x y hreach hstep
        obtain rfl := hnext.eq hnext'
        have := hshort n hneeded
        omega
    · intro rs hrs
      obtain ⟨x, hreach, hlast⟩ := strUnpack_returns hrs
      have hin := reached_inside data.2 hregular hreach
      have hbound := data.2
      have hval : (Int64.ofNat (x.pos + 1)).toInt = x.pos + 1 := by
        rw [Int64.toInt_ofNat_of_lt (by omega)]
        rfl
      exact ⟨_, hlast, by omega, by omega⟩

/-- Without a zero in the data, `z` goes on behind it; a stored length of all ones
takes `s` back, and the string is cut off at the end of the data. -/
theorem unpack_leaves_data :
    exampleHost.strUnpack ['z'.toUInt8] [97, 98, 99] none = .ok [.str [97, 98, 99], .int 5] ∧
      ¬ exampleHost.UnpackSafe [97, 98, 99] ['z'.toUInt8] none ∧
      exampleHost.strUnpack ['s'.toUInt8] (List.replicate 8 255) none = .ok [.str [], .int 8] ∧
      ¬ exampleHost.UnpackSafe (List.replicate 8 255) ['s'.toUInt8] none := by
  have hz : exampleHost.strUnpack ['z'.toUInt8] [97, 98, 99] none =
      .ok [.str [97, 98, 99], .int 5] := by
    decide +kernel
  have hs : exampleHost.strUnpack ['s'.toUInt8] (List.replicate 8 255) none =
      .ok [.str [], .int 8] := by
    decide +kernel
  refine ⟨hz, fun h => ?_, hs, fun h => ?_⟩
  · obtain ⟨n, hn, -, hle⟩ := h.returns _ hz
    simp only [List.getLast?_cons_cons, List.getLast?_singleton, Option.some.injEq,
      Value.int.injEq] at hn
    subst hn
    revert hle
    decide
  · have hneeded : needed true 8 (List.replicate 8 255) 0 .string = some (8 + (2 ^ 64 - 1)) := by
      decide
    obtain ⟨e, he⟩ := h.rejects ⟨{ islittle := true }, 0, ['s'.toUInt8]⟩
      ⟨⟨.string, 8, { islittle := true }, []⟩, 0⟩ ⟨by decide, .refl⟩
      ⟨_, _, rfl, rfl⟩ (by
        intro n hn
        have := hneeded.symm.trans hn
        simp only [Option.some.injEq] at this
        simp
        omega)
    rw [hs] at he
    simp at he

end Luatier.Pack
