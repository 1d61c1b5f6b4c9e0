import Luatier.Stdlib.PackRoundTrip

/-!
# The size of a packed string

`string.packsize` adds up what `string.pack` writes and `string.unpack` reads.  A
format of options that have a fixed size has a layout of its own: where each option
stands does not depend on the arguments or the data.
-/

namespace Luatier.Pack

def kMaxSize : Nat := 2 ^ 31 - 1

def tooLarge : Failure := .panic "format result too large"

/-- The loop of `str_packsize`. -/
def Host.packsizeLoop (host : Host) (h : PackHeader) (totalsize : Nat) :
    List UInt8 → Except Failure Nat
  | [] => .ok totalsize
  | c :: fmt =>
      match _h : host.getdetails h totalsize c fmt with
      | .error e => .error e
      | .ok d =>
          let size := d.size + d.ntoalign
          if size > kMaxSize ∨ totalsize > kMaxSize - size then .error tooLarge
          else if d.opt = .string ∨ d.opt = .zstr then .error (.panic "variable-length format")
          else host.packsizeLoop d.header (totalsize + size) d.rest
  termination_by fmt => fmt.length
  decreasing_by exact Nat.lt_succ_of_le (Host.getdetails_length _h)

def Host.strPacksize (host : Host) (fmt : List UInt8) : Except Failure Nat :=
  host.packsizeLoop { islittle := host.nativeLittle } 0 (cstring fmt)

/-! ## Layouts -/

/-- Where a format of options with a fixed size ends when it starts at `total`. -/
def Host.layout (host : Host) (h : PackHeader) (total : Nat) : List UInt8 → Option Nat
  | [] => some total
  | c :: fmt =>
      match _h : host.getdetails h total c fmt with
      | .error _ => none
      | .ok d =>
          if d.opt = .string ∨ d.opt = .zstr then none
          else host.layout d.header (total + d.ntoalign + d.size) d.rest
  termination_by fmt => fmt.length
  decreasing_by exact Nat.lt_succ_of_le (Host.getdetails_length _h)

variable {host : Host} {h : PackHeader} {c : UInt8} {fmt s data : List UInt8}
  {total n : Nat} {d : Details} {e : Failure} {args : List Value}

theorem layout_error (hd : host.getdetails h total c fmt = .error e) :
    host.layout h total (c :: fmt) = none := by
  rw [Host.layout]
  split <;> simp_all

theorem layout_variable (hd : host.getdetails h total c fmt = .ok d)
    (hvar : d.opt = .string ∨ d.opt = .zstr) : host.layout h total (c :: fmt) = none := by
  rw [Host.layout]
  split <;> simp_all

theorem layout_cons (hd : host.getdetails h total c fmt = .ok d)
    (hfixed : ¬ (d.opt = .string ∨ d.opt = .zstr)) :
    host.layout h total (c :: fmt) =
      host.layout d.header (total + d.ntoalign + d.size) d.rest := by
  rw [Host.layout]
  split
  · simp_all
  · rename_i d' hd'
    rw [hd] at hd'
    cases hd'
    simp [hfixed]

theorem layout_ge (hn : host.layout h total fmt = some n) : total ≤ n := by
  induction hm : fmt.length using Nat.strongRecOn generalizing h total fmt with
  | ind m ih =>
      cases fmt with
      | nil =>
          simp only [Host.layout, Option.some.injEq] at hn
          omega
      | cons c fmt =>
          cases hd : host.getdetails h total c fmt with
          | error e => simp [layout_error hd] at hn
          | ok d =>
              have hshorter := Host.getdetails_length hd
              by_cases hvar : d.opt = .string ∨ d.opt = .zstr
              · simp [layout_variable hd hvar] at hn
              · rw [layout_cons hd hvar] at hn
                have := ih d.rest.length (by simp at hm; omega) hn rfl
                omega

theorem packsizeLoop_error (hd : host.getdetails h total c fmt = .error e) :
    host.packsizeLoop h total (c :: fmt) = .error e := by
  rw [Host.packsizeLoop]
  split <;> simp_all

theorem packsizeLoop_cons (hd : host.getdetails h total c fmt = .ok d) :
    host.packsizeLoop h total (c :: fmt) =
      if d.size + d.ntoalign > kMaxSize ∨ total > kMaxSize - (d.size + d.ntoalign) then
        .error tooLarge
      else if d.opt = .string ∨ d.opt = .zstr then .error (.panic "variable-length format")
      else host.packsizeLoop d.header (total + (d.size + d.ntoalign)) d.rest := by
  rw [Host.packsizeLoop]
  split
  · simp_all
  · rename_i d' hd'
    rw [hd] at hd'
    cases hd'
    rfl

/-- `string.packsize` accepts a format that has a layout and ends at a place that an
`int` can hold, and gives that place. -/
theorem packsizeLoop_iff (htotal : total ≤ kMaxSize) :
    host.packsizeLoop h total fmt = .ok n ↔ host.layout h total fmt = some n ∧ n ≤ kMaxSize := by
  induction hm : fmt.length using Nat.strongRecOn generalizing h total fmt with
  | ind m ih =>
      cases fmt with
      | nil =>
          simp only [Host.packsizeLoop, Host.layout, Except.ok.injEq, Option.some.injEq]
          omega
      | cons c fmt =>
          cases hd : host.getdetails h total c fmt with
          | error e => simp [packsizeLoop_error hd, layout_error hd]
          | ok d =>
              have hshorter := Host.getdetails_length hd
              rw [packsizeLoop_cons hd]
              by_cases hlarge : d.size + d.ntoalign > kMaxSize ∨
                  total > kMaxSize - (d.size + d.ntoalign)
              · rw [if_pos hlarge]
                constructor
                · simp
                · rintro ⟨hn, hmax⟩
                  by_cases hvar : d.opt = .string ∨ d.opt = .zstr
                  · simp [layout_variable hd hvar] at hn
                  · rw [layout_cons hd hvar] at hn
                    have := layout_ge hn
                    omega
              · rw [if_neg hlarge]
                by_cases hvar : d.opt = .string ∨ d.opt = .zstr
                · simp [hvar, layout_variable hd hvar]
                · have hnext : total + d.ntoalign + d.size = total + (d.size + d.ntoalign) := by
                    omega
                  rw [if_neg hvar, layout_cons hd hvar, hnext]
                  exact ih d.rest.length (by simp at hm; omega) (by omega) rfl

theorem packsizeLoop_tooLarge (htotal : total ≤ kMaxSize)
    (hn : host.layout h total fmt = some n) (hlarge : kMaxSize < n) :
    host.packsizeLoop h total fmt = .error tooLarge := by
  induction hm : fmt.length using Nat.strongRecOn generalizing h total fmt with
  | ind m ih =>
      cases fmt with
      | nil =>
          simp only [Host.layout, Option.some.injEq] at hn
          omega
      | cons c fmt =>
          cases hd : host.getdetails h total c fmt with
          | error e => simp [layout_error hd] at hn
          | ok d =>
              have hshorter := Host.getdetails_length hd
              by_cases hvar : d.opt = .string ∨ d.opt = .zstr
              · simp [layout_variable hd hvar] at hn
              · have hnext : total + d.ntoalign + d.size = total + (d.size + d.ntoalign) := by
                  omega
                rw [layout_cons hd hvar, hnext] at hn
                rw [packsizeLoop_cons hd]
                rw [if_neg hvar]
                split
                · rfl
                · exact ih d.rest.length (by simp at hm; omega) (by omega) hn rfl

/-! ## What is packed -/

/-- No option of the format is as long as its argument asks for. -/
def Host.FixedSize (host : Host) (h : PackHeader) (fmt : List UInt8) : Prop :=
  ∀ slot ∈ host.slots h fmt, slot.1 ≠ .string ∧ slot.1 ≠ .zstr

theorem fixedSize_cons (hfixed : host.FixedSize h (c :: fmt))
    (hd : host.getdetails h total c fmt = .ok d) :
    ¬ (d.opt = .string ∨ d.opt = .zstr) ∧ host.FixedSize d.header d.rest := by
  rw [Host.FixedSize, slots_cons hd] at hfixed
  split at hfixed
  · simp only [List.mem_cons, forall_eq_or_imp] at hfixed
    exact ⟨by simp [hfixed.1], hfixed.2⟩
  · rename_i htakes
    refine ⟨?_, hfixed⟩
    rintro (hopt | hopt) <;> simp [hopt, PackOpt.takesArgument] at htakes

theorem length_packItem {islittle : Bool} {size arg : Nat} {opt : PackOpt} {item : Packed}
    (hsized : Sized opt size) (hfixed : ¬ (opt = .string ∨ opt = .zstr))
    (hitem : host.packItem islittle size args arg opt = .ok item) :
    item.bytes.length = size ∧ item.extra = 0 := by
  cases opt with
  | int =>
      obtain ⟨n, -, hitem⟩ := StateFrame.except_bind_ok.mp hitem
      simp only at hitem
      split_ifs at hitem
      · cases hitem
      · cases hitem
        exact ⟨length_packint _ _ _ _, rfl⟩
  | uint =>
      obtain ⟨n, -, hitem⟩ := StateFrame.except_bind_ok.mp hitem
      simp only at hitem
      split_ifs at hitem
      · cases hitem
      · cases hitem
        exact ⟨length_packint _ _ _ _, rfl⟩
  | float =>
      obtain ⟨n, -, hitem⟩ := StateFrame.except_bind_ok.mp hitem
      cases hitem
      exact ⟨length_floatBytes _ _ _ _, rfl⟩
  | char =>
      obtain ⟨s, -, hitem⟩ := StateFrame.except_bind_ok.mp hitem
      simp only at hitem
      split_ifs at hitem
      · cases hitem
      · cases hitem
        simp
        omega
  | string => simp at hfixed
  | zstr => simp at hfixed
  | padding | padalign | nop =>
      cases hitem
      cases hsized
      exact ⟨rfl, rfl⟩

theorem packLoop_layout {arg : Nat} (out : List UInt8) (hfixed : host.FixedSize h fmt)
    (hpack : host.packLoop args h out.length arg out fmt = .ok s) :
    host.layout h out.length fmt = some s.length := by
  induction hm : fmt.length using Nat.strongRecOn generalizing h arg out fmt with
  | ind m ih =>
      cases fmt with
      | nil =>
          rw [Host.packLoop] at hpack
          cases hpack
          simp [Host.layout]
      | cons c fmt =>
          rw [Host.packLoop] at hpack
          split at hpack
          · cases hpack
          · rename_i d hd
            split at hpack
            · cases hpack
            · rename_i item hitem
              have hshorter := Host.getdetails_length hd
              obtain ⟨hopt, hrest⟩ := fixedSize_cons hfixed hd
              have hlen := length_packItem (getdetails_cases hd).1 hopt hitem
              have hout : (out ++ List.replicate d.ntoalign kPackPad ++ item.bytes).length =
                  out.length + d.ntoalign + d.size := by
                simp [hlen.1]
                omega
              have htotal : out.length + (d.ntoalign + d.size) + item.extra =
                  (out ++ List.replicate d.ntoalign kPackPad ++ item.bytes).length := by
                rw [hout, hlen.2]
                omega
              rw [htotal] at hpack
              rw [layout_cons hd hopt, ← hout]
              exact ih d.rest.length (by simp at hm; omega) _ hrest hpack rfl

/-! ## What is unpacked -/

/-- What a string of the program can hold, with the zero behind it. -/
abbrev StringView := { s : List UInt8 // s.length + 1 < 2 ^ 63 }

/-- The error for an integer that has more than the bits of an `int64_t`. -/
def doesNotFit (size : Nat) : Failure :=
  .panic (toString size ++ "-byte integer does not fit into Lua Integer")

theorem unpackint_cases (str : List UInt8) (islittle : Bool) (size : Nat) (issigned : Bool)
    (hlen : str.length = size) :
    (∃ n, unpackint str islittle size issigned = .ok n) ∨
      8 < size ∧ unpackint str islittle size issigned = .error (doesNotFit size) := by
  simp only [unpackint]
  by_cases hsize : size < 8
  · rw [if_pos hsize]
    exact .inl ⟨_, rfl⟩
  · rw [if_neg hsize]
    generalize hany : List.any _ _ = rest
    cases rest with
    | true =>
        refine .inr ⟨?_, rfl⟩
        by_contra hlarge
        rw [List.drop_eq_nil_of_le (by simp; omega)] at hany
        simp at hany
    | false => exact .inl ⟨_, rfl⟩

theorem unpackItem_fixed (host : Host) (islittle : Bool) {size pos : Nat} {opt : PackOpt}
    (hfits : pos + size ≤ data.length) (hfixed : ¬ (opt = .string ∨ opt = .zstr)) :
    (∃ item, host.unpackItem islittle size data pos opt = .ok item ∧ item.extra = 0) ∨
      8 < size ∧ (opt = .int ∨ opt = .uint) ∧
        host.unpackItem islittle size data pos opt = .error (doesNotFit size) := by
  have hlen : ((data.drop pos).take size).length = size := by
    simp
    omega
  cases opt with
  | int =>
      rcases unpackint_cases _ islittle size true hlen with ⟨n, hn⟩ | ⟨hsize, hn⟩
      · exact .inl ⟨⟨some (.int n), 0⟩, by simp [Host.unpackItem, hn, bind, Except.bind, pure,
          Except.pure], rfl⟩
      · exact .inr ⟨hsize, .inl rfl, by simp [Host.unpackItem, hn, bind, Except.bind]⟩
  | uint =>
      rcases unpackint_cases _ islittle size false hlen with ⟨n, hn⟩ | ⟨hsize, hn⟩
      · exact .inl ⟨⟨some (.int n), 0⟩, by simp [Host.unpackItem, hn, bind, Except.bind, pure,
          Except.pure], rfl⟩
      · exact .inr ⟨hsize, .inr rfl, by simp [Host.unpackItem, hn, bind, Except.bind]⟩
  | string => simp at hfixed
  | zstr => simp at hfixed
  | float | char | padding | padalign | nop => exact .inl ⟨_, rfl, rfl⟩

theorem mem_slots_cons {slot : Slot} (hd : host.getdetails h total c fmt = .ok d)
    (hslot : slot ∈ host.slots d.header d.rest) : slot ∈ host.slots h (c :: fmt) := by
  rw [slots_cons hd]
  split
  · exact List.mem_cons_of_mem _ hslot
  · exact hslot

theorem unpackLoop_error {pos : Nat} {results : List Value}
    (hd : host.getdetails h pos c fmt = .ok d) (hfits : pos + d.ntoalign + d.size ≤ data.length)
    (hitem : host.unpackItem d.header.islittle d.size data (pos + d.ntoalign) d.opt = .error e) :
    host.unpackLoop data h pos results (c :: fmt) = .error e := by
  rw [Host.unpackLoop]
  split
  · simp_all
  · rename_i d' hd'
    rw [hd] at hd'
    cases hd'
    simp [Nat.not_lt.mpr hfits, hitem]

theorem unpackLoop_layout (data : StringView) (results : List Value) {pos : Nat}
    (hn : host.layout h pos fmt = some n) (hle : n ≤ data.1.length) :
    (∃ rs, host.unpackLoop data h pos results fmt = .ok (rs, n)) ∨
      ∃ size, 8 < size ∧ ((.int, size) ∈ host.slots h fmt ∨ (.uint, size) ∈ host.slots h fmt) ∧
        host.unpackLoop data h pos results fmt = .error (doesNotFit size) := by
  have hbound := data.2
  induction hm : fmt.length using Nat.strongRecOn generalizing h pos fmt results with
  | ind m ih =>
      cases fmt with
      | nil =>
          simp only [Host.layout, Option.some.injEq] at hn
          subst hn
          exact .inl ⟨results, unpackLoop_nil⟩
      | cons c fmt =>
          cases hd : host.getdetails h pos c fmt with
          | error e => simp [layout_error hd] at hn
          | ok d =>
              have hshorter := Host.getdetails_length hd
              by_cases hvar : d.opt = .string ∨ d.opt = .zstr
              · simp [layout_variable hd hvar] at hn
              · rw [layout_cons hd hvar] at hn
                have hnext := layout_ge hn
                have hfits : pos + d.ntoalign + d.size ≤ data.1.length := by omega
                rcases unpackItem_fixed host d.header.islittle hfits hvar
                  with ⟨item, hitem, hextra⟩ | ⟨hsize, hopt, hitem⟩
                · have hpos : sizeT (pos + d.ntoalign + item.extra + d.size) =
                      pos + d.ntoalign + d.size := by
                    rw [hextra, sizeT_of_lt] <;> omega
                  rw [unpackLoop_cons hd hfits hitem, hpos]
                  refine (ih d.rest.length (by simp at hm; omega) _ hn rfl).imp_right ?_
                  rintro ⟨size, hsize, hslot, hloop⟩
                  exact ⟨size, hsize, hslot.imp (mem_slots_cons hd) (mem_slots_cons hd), hloop⟩
                · right
                  refine ⟨d.size, hsize, ?_, unpackLoop_error hd hfits hitem⟩
                  rw [slots_cons hd]
                  rcases hopt with hopt | hopt <;> simp [hopt, PackOpt.takesArgument]

/-! ## The three functions -/

/-- For a format of options with a fixed size, `string.packsize` gives the length of
what `string.pack` writes, and rejects it where an `int` cannot hold that.
`string.unpack` of as much data ends behind it, unless an integer of more than eight
bytes does not fit.  The formats that `string.packsize` accepts are those of a total
size that an `int` can hold. -/
theorem packsize_pack_unpack (host : Host) {fmt s : List UInt8} {args : List Value}
    (hfixed : host.FixedSize { islittle := host.nativeLittle } (cstring fmt))
    (hpack : host.strPack fmt args = .ok s) (data : StringView)
    (hdata : s.length ≤ data.1.length) :
    host.strPacksize fmt = (if s.length ≤ kMaxSize then .ok s.length else .error tooLarge) ∧
    ((∃ results, host.strUnpack fmt data none =
        .ok (results ++ [.int (Int64.ofNat (s.length + 1))])) ∨
      ∃ size, 8 < size ∧
        ((.int, size) ∈ host.slots { islittle := host.nativeLittle } (cstring fmt) ∨
          (.uint, size) ∈ host.slots { islittle := host.nativeLittle } (cstring fmt)) ∧
        host.strUnpack fmt data none = .error (doesNotFit size)) ∧
    ∀ fmt n, host.strPacksize fmt = .ok n ↔
      host.layout { islittle := host.nativeLittle } 0 (cstring fmt) = some n ∧ n ≤ kMaxSize := by
  have hlayout : host.layout { islittle := host.nativeLittle } 0 (cstring fmt) = some s.length :=
    packLoop_layout [] hfixed hpack
  refine ⟨?_, ?_, fun fmt n => packsizeLoop_iff (Nat.zero_le _)⟩
  · split
    · rename_i hmax
      exact (packsizeLoop_iff (Nat.zero_le _)).mpr ⟨hlayout, hmax⟩
    · rename_i hmax
      exact packsizeLoop_tooLarge (Nat.zero_le _) hlayout (Nat.lt_of_not_le hmax)
  · simp only [Host.strUnpack, unpackStart_none, Nat.not_lt_zero, if_false, gt_iff_lt]
    rcases unpackLoop_layout data [] hlayout hdata with
      ⟨rs, hloop⟩ | ⟨size, hsize, hslot, hloop⟩
    · exact .inl ⟨rs, by simp [hloop, bind, Except.bind, pure, Except.pure]⟩
    · exact .inr ⟨size, hsize, hslot, by simp [hloop, bind, Except.bind]⟩

/-- Sixteen bytes are as many as the option packs, but they need not hold an integer
of 64 bits. -/
theorem wide_integer_not_unpacked :
    exampleHost.strPacksize "i16".toUTF8.toList = .ok 16 ∧
      exampleHost.strPack "i16".toUTF8.toList [.int 1] = .ok (1 :: List.replicate 15 0) ∧
      exampleHost.strUnpack "i16".toUTF8.toList (List.replicate 16 1) none =
        .error (doesNotFit 16) := by
  decide +kernel

theorem packsize_aligned :
    exampleHost.strPacksize "!4bi4Xdc3".toUTF8.toList =
        (if 11 ≤ kMaxSize then .ok 11 else .error tooLarge) ∧
    ((∃ results, exampleHost.strUnpack "!4bi4Xdc3".toUTF8.toList (List.replicate 12 0) none =
        .ok (results ++ [.int (Int64.ofNat 12)])) ∨
      ∃ size, 8 < size ∧
        ((.int, size) ∈ exampleHost.slots { islittle := true }
            (cstring "!4bi4Xdc3".toUTF8.toList) ∨
          (.uint, size) ∈ exampleHost.slots { islittle := true }
            (cstring "!4bi4Xdc3".toUTF8.toList)) ∧
        exampleHost.strUnpack "!4bi4Xdc3".toUTF8.toList (List.replicate 12 0) none =
          .error (doesNotFit size)) ∧
    ∀ fmt n, exampleHost.strPacksize fmt = .ok n ↔
      exampleHost.layout { islittle := true } 0 (cstring fmt) = some n ∧ n ≤ kMaxSize := by
  have hslots : exampleHost.slots { islittle := exampleHost.nativeLittle }
      (cstring "!4bi4Xdc3".toUTF8.toList) = [(.int, 1), (.int, 4), (.char, 3)] := by
    decide +kernel
  have hpack : exampleHost.strPack "!4bi4Xdc3".toUTF8.toList
      [.int 1, .int (-2), .str [65, 66]] = .ok [1, 0, 0, 0, 254, 255, 255, 255, 65, 66, 0] := by
    decide +kernel
  exact packsize_pack_unpack exampleHost (by rw [Host.FixedSize, hslots]; simp) hpack
    ⟨List.replicate 12 0, by decide⟩ (by decide)

end Luatier.Pack
