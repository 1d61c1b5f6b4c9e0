import Luatier.Stdlib.PackSpec

/-!
# `string.unpack` undoes `string.pack`

The induction is on the format.  Before each option both loops stand behind the
same bytes, and `totalsize` and `pos` count them.
-/

namespace Luatier.Pack

open Binary64

variable {host : Host} {h : PackHeader} {c : UInt8} {fmt : List UInt8}

theorem getnumlimit_pos {fmt rest : List UInt8} {df size : Nat}
    (h : getnumlimit fmt df = .ok (size, rest)) : 0 < size := by
  simp only [getnumlimit] at h
  split_ifs at h with hlimit
  cases h
  omega

theorem getoption_sized {o : OptionRead} (ho : host.getoption h c fmt = .ok o) :
    Sized o.opt o.size := by
  unfold Host.getoption at ho
  simp only at ho
  split at ho
  case h_13 | h_14 | h_15 =>
    obtain ⟨⟨size, rest⟩, hsize, ho⟩ := StateFrame.except_bind_ok.mp ho
    cases ho
    exact getnumlimit_pos hsize
  case h_29 =>
    obtain ⟨⟨size, rest⟩, hsize, ho⟩ := StateFrame.except_bind_ok.mp ho
    cases ho
    rfl
  case h_16 =>
    split at ho
    · cases ho
    · cases ho
      trivial
  case h_30 => cases ho
  all_goals
    cases ho
    simp [Sized]

theorem getdetails_cases {totalsize : Nat} {d : Details}
    (hd : host.getdetails h totalsize c fmt = .ok d) :
    Sized d.opt d.size ∧ ∀ totalsize', ∃ n,
      host.getdetails h totalsize' c fmt = .ok { d with ntoalign := n } := by
  obtain ⟨o, ho, hd⟩ := StateFrame.except_bind_ok.mp hd
  obtain ⟨⟨align, header, rest⟩, halign, hd⟩ := StateFrame.except_bind_ok.mp hd
  have hsized := getoption_sized ho
  simp only at hd
  split_ifs at hd with hnone hpow
  · cases hd
    refine ⟨hsized, fun totalsize' => ⟨0, ?_⟩⟩
    unfold Host.getdetails
    simp [ho, halign, hnone, bind, Except.bind, pure, Except.pure]
  · cases hd
  · cases hd
    refine ⟨hsized, fun totalsize' => ⟨ntoalignOf totalsize' (min align header.maxalign), ?_⟩⟩
    unfold Host.getdetails
    simp only [ho, halign, bind, Except.bind]
    rw [if_neg hnone, if_neg hpow]
    rfl

def Host.slots (host : Host) (h : PackHeader) : List UInt8 → List Slot
  | [] => []
  | c :: fmt =>
      match _h : host.getdetails h 0 c fmt with
      | .error _ => []
      | .ok d =>
          if d.opt.takesArgument then (d.opt, d.size) :: host.slots d.header d.rest
          else host.slots d.header d.rest
  termination_by fmt => fmt.length
  decreasing_by
    all_goals exact Nat.lt_succ_of_le (Host.getdetails_length _h)

theorem slots_cons {totalsize : Nat} {d : Details}
    (hd : host.getdetails h totalsize c fmt = .ok d) :
    host.slots h (c :: fmt) =
      if d.opt.takesArgument then (d.opt, d.size) :: host.slots d.header d.rest
      else host.slots d.header d.rest := by
  obtain ⟨n, hn⟩ := (getdetails_cases hd).2 0
  rw [Host.slots]
  split
  · rename_i e he
    cases hn.symm.trans he
  · rename_i d' hd'
    cases hn.symm.trans hd'
    rfl

/-- The results, slot by slot; arguments that no option takes are not packed. -/
inductive Returns (host : Host) : List Slot → List Value → List Value → Prop where
  | nil {args : List Value} : Returns host [] args []
  | cons {slot : Slot} {slots : List Slot} {v r : Value} {args results : List Value} :
      Returned host slot v r → Returns host slots args results →
        Returns host (slot :: slots) (v :: args) (r :: results)

theorem packLoop_prefix {args : List Value} {totalsize arg : Nat} {out fmt s : List UInt8}
    (hpack : host.packLoop args h totalsize arg out fmt = .ok s) : out <+: s := by
  induction hn : fmt.length using Nat.strongRecOn generalizing h totalsize arg out fmt with
  | ind n ih =>
      cases fmt with
      | nil =>
          rw [Host.packLoop] at hpack
          cases hpack
          exact List.prefix_rfl
      | cons c fmt =>
          rw [Host.packLoop] at hpack
          split at hpack
          · cases hpack
          · rename_i d hd
            split at hpack
            · cases hpack
            · have hlt := Host.getdetails_length hd
              rw [List.length_cons] at hn
              have hrest := ih d.rest.length (by omega) hpack rfl
              rw [List.append_assoc] at hrest
              exact (List.prefix_append _ _).trans hrest

theorem unpackLoop_nil {data : List UInt8} {pos : Nat} {results : List Value} :
    host.unpackLoop data h pos results [] = .ok (results, pos) := by
  rw [Host.unpackLoop]

theorem unpackLoop_cons {data : List UInt8} {pos : Nat} {results : List Value} {d : Details}
    {item : Unpacked} (hd : host.getdetails h pos c fmt = .ok d)
    (hfits : pos + d.ntoalign + d.size ≤ data.length)
    (hitem : host.unpackItem d.header.islittle d.size data (pos + d.ntoalign) d.opt = .ok item) :
    host.unpackLoop data h pos results (c :: fmt) =
      host.unpackLoop data d.header (sizeT (pos + d.ntoalign + item.extra + d.size))
        (results ++ item.value.toList) d.rest := by
  rw [Host.unpackLoop]
  split
  · rename_i e he
    cases hd.symm.trans he
  · rename_i d' hd'
    cases hd.symm.trans hd'
    rw [if_neg (Nat.not_lt.mpr hfits), hitem]

theorem drop_pred_eq {args : List Value} {arg : Nat} {v : Value} (harg : 0 < arg)
    (hv : args[arg - 1]? = some v) : args.drop (arg - 1) = v :: args.drop arg := by
  obtain ⟨hlt, rfl⟩ := List.getElem?_eq_some_iff.mp hv
  rw [List.drop_eq_getElem_cons hlt, Nat.sub_add_cancel harg]

theorem unpackLoop_packLoop {args : List Value} {arg : Nat} {out fmt s : List UInt8}
    (results : List Value) (harg : 0 < arg)
    (hpack : host.packLoop args h out.length arg out fmt = .ok s)
    (hexact : ∀ x ∈ (host.slots h fmt).zip (args.drop (arg - 1)), Exact host x.1 x.2)
    (hfit : s.length < 2 ^ 64) :
    ∃ rs, host.unpackLoop s h out.length results fmt = .ok (results ++ rs, s.length) ∧
      Returns host (host.slots h fmt) (args.drop (arg - 1)) rs := by
  induction hn : fmt.length using Nat.strongRecOn generalizing h arg out fmt results with
  | ind n ih =>
      cases fmt with
      | nil =>
          rw [Host.packLoop] at hpack
          cases hpack
          rw [unpackLoop_nil, Host.slots]
          exact ⟨[], by rw [List.append_nil], .nil⟩
      | cons c fmt =>
          rw [Host.packLoop] at hpack
          split at hpack
          · cases hpack
          rename_i d hd
          split at hpack
          · cases hpack
          rename_i item hitem
          have hshorter := Host.getdetails_length hd
          rw [List.length_cons] at hn
          -- the bytes of this option, in the packed string
          obtain ⟨more, hmore⟩ := packLoop_prefix hpack
          have hpads : (out ++ List.replicate d.ntoalign kPackPad).length =
              out.length + d.ntoalign := by simp
          have hdata : s.drop (out.length + d.ntoalign) = item.bytes ++ more := by
            rw [← hmore, List.append_assoc, List.drop_left' hpads]
          have htotal := congrArg List.length hmore
          simp only [List.length_append, List.length_replicate] at htotal
          have hundoes := undoes_item (getdetails_cases hd).1 ?_ hfit hitem hdata
          · obtain ⟨hbytes, hread⟩ := hundoes
            have hnext : out.length + (d.ntoalign + d.size) + item.extra =
                (out ++ List.replicate d.ntoalign kPackPad ++ item.bytes).length := by
              simp only [List.length_append, List.length_replicate, hbytes]
              omega
            have hpos : sizeT (out.length + d.ntoalign + item.extra + d.size) =
                (out ++ List.replicate d.ntoalign kPackPad ++ item.bytes).length := by
              rw [sizeT_of_lt (by omega)]
              omega
            rw [hnext] at hpack
            rw [slots_cons hd] at hexact ⊢
            split_ifs at hread hexact ⊢ with htakes
            · obtain ⟨hargs, v, r, hv, hread, hreturned⟩ := hread
              have hdrop := drop_pred_eq harg hv
              rw [hargs] at hpack
              rw [hdrop] at hexact ⊢
              obtain ⟨rs, hrs, hreturns⟩ := ih d.rest.length (by omega) (results ++ [r])
                (Nat.succ_pos arg) hpack
                (fun x hx => hexact x (List.mem_cons_of_mem _ hx)) rfl
              refine ⟨r :: rs, ?_, .cons hreturned hreturns⟩
              rw [unpackLoop_cons hd (by omega) hread, hpos]
              simpa using hrs
            · obtain ⟨hargs, hread⟩ := hread
              rw [hargs, Nat.add_sub_cancel] at hpack
              obtain ⟨rs, hrs, hreturns⟩ := ih d.rest.length (by omega) results harg hpack
                hexact rfl
              refine ⟨rs, ?_, hreturns⟩
              rw [unpackLoop_cons hd (by omega) hread, hpos]
              simpa using hrs
          · intro htakes v hv
            rw [slots_cons hd, if_pos htakes, drop_pred_eq harg hv] at hexact
            exact hexact _ List.mem_cons_self

/-- Where `string.pack` accepts its arguments and keeps all of them, `string.unpack`
with the same format gives back what each option takes its argument for, and behind
that the place behind the packed string. -/
theorem strUnpack_strPack (host : Host) {fmt s : List UInt8} {args : List Value}
    (hpack : host.strPack fmt args = .ok s) (hfit : s.length < 2 ^ 64)
    (hexact : ∀ x ∈ (host.slots { islittle := host.nativeLittle } (cstring fmt)).zip args,
      Exact host x.1 x.2) :
    ∃ results,
      host.strUnpack fmt s none = .ok (results ++ [.int (Int64.ofNat (s.length + 1))]) ∧
        Returns host (host.slots { islittle := host.nativeLittle } (cstring fmt)) args
          results := by
  obtain ⟨rs, hrs, hreturns⟩ :=
    @unpackLoop_packLoop host _ args 1 [] _ s [] Nat.one_pos hpack hexact hfit
  refine ⟨rs, ?_, hreturns⟩
  simp only [List.length_nil, List.nil_append] at hrs
  unfold Host.strUnpack
  simp only [unpackStart_none]
  rw [if_neg (Nat.not_lt_zero _), hrs]
  rfl

def exampleHost : Host where
  nativeLittle := true
  strToNumber s := if s = "10".toUTF8.toList then some (.int 10) else none

theorem short_and_string_unpacked :
    ∃ results,
      exampleHost.strUnpack "h!4 s1".toUTF8.toList [254, 255, 1, 65] none =
          .ok (results ++ [.int (Int64.ofNat 5)]) ∧
        Returns exampleHost [(.int, 2), (.string, 1)] [.int (-2), .str [65]] results := by
  have hpack : exampleHost.strPack "h!4 s1".toUTF8.toList [.int (-2), .str [65]] =
      .ok [254, 255, 1, 65] := by decide +kernel
  have hslots : exampleHost.slots { islittle := exampleHost.nativeLittle }
      (cstring "h!4 s1".toUTF8.toList) = [(.int, 2), (.string, 1)] := by decide +kernel
  obtain ⟨results, hunpack, hreturns⟩ := strUnpack_strPack exampleHost hpack (by decide) (by
    rw [hslots]
    intro x hx
    rcases List.mem_cons.mp hx with rfl | hx
    · exact fun w hw => (nomatch hw)
    · obtain rfl := List.mem_singleton.mp hx
      trivial)
  rw [hslots] at hreturns
  exact ⟨results, hunpack, hreturns⟩

/-- A numeral comes back as the number that it stands for. -/
theorem numeral_unpacked :
    ¬ ∀ (args : List Value) (s : List UInt8),
      exampleHost.strPack "i".toUTF8.toList args = .ok s →
        exampleHost.strUnpack "i".toUTF8.toList s none =
          .ok (args ++ [.int (Int64.ofNat (s.length + 1))]) := by
  intro h
  have hpack : exampleHost.strPack "i".toUTF8.toList [.str "10".toUTF8.toList] =
      .ok [10, 0, 0, 0] := by decide +kernel
  have hunpack : exampleHost.strUnpack "i".toUTF8.toList [10, 0, 0, 0] none =
      .ok [.int 10, .int 5] := by decide +kernel
  cases hunpack.symm.trans (h _ _ hpack)

end Luatier.Pack
