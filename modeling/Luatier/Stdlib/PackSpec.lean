import Luatier.Runtime.Value
import Luatier.Stdlib.Pack

/-!
# What `string.unpack` gets back

Each option writes bytes from which the same option reads its argument, as the
option converted it.  The two loops read the format alike and stand at the same
place of the packed string, so that their paddings agree.
-/

namespace Luatier.Pack

open Binary64 Codec

/-! ## Integers -/

theorem shiftedBytes_eq (size : Nat) (n : UInt64) :
    shiftedBytes size n = bytes size n.toNat := by
  induction size generalizing n with
  | zero => rfl
  | succ size ih =>
      rw [shiftedBytes, bytes, ih]
      congr 1
      · apply UInt8.toNat_inj.mp
        rw [UInt64.toNat_toUInt8, UInt64.toNat_and, UInt8.toNat_ofNat']
        rw [show (0xFF : UInt64).toNat = 2 ^ 8 - 1 from rfl, Nat.and_two_pow_sub_one_eq_mod]
        omega
      · rw [UInt64.toNat_shiftRight, Nat.shiftRight_eq_div_pow]
        rfl

theorem foldr_toNat (bs : List UInt8) (h : bs.length ≤ 8) :
    (bs.foldr (fun b (res : UInt64) => (res <<< 8) ||| b.toUInt64) 0).toNat = value bs := by
  induction bs with
  | nil => rfl
  | cons b bs ih =>
      rw [List.length_cons] at h
      have hlt := value_lt bs
      have hpow : 256 ^ bs.length ≤ 256 ^ 7 := Nat.pow_le_pow_right (by decide) (by omega)
      have hb := b.toNat_lt
      rw [List.foldr_cons, UInt64.toNat_or, UInt64.toNat_shiftLeft, ih (by omega), value,
        show (8 : UInt64).toNat % 64 = 8 from rfl, Nat.shiftLeft_eq,
        Nat.mod_eq_of_lt (by omega), ← Nat.shiftLeft_eq, UInt8.toNat_toUInt64,
        ← Nat.shiftLeft_add_eq_or_of_lt (by omega), Nat.shiftLeft_eq]
      omega

theorem toInt_cond (n : Int64) :
    n.toInt = if 2 * n.toUInt64.toNat < 2 ^ 64 then (n.toUInt64.toNat : Int)
      else (n.toUInt64.toNat : Int) - (2 ^ 64 : Nat) :=
  BitVec.toInt_eq_toNat_cond n.toBitVec

theorem mask_toNat {k : Nat} (hk : k < 64) :
    ((1 : UInt64) <<< UInt64.ofNat k).toNat = 2 ^ k := by
  have hlt : 2 ^ k < 2 ^ 64 := Nat.pow_lt_pow_right (by decide) hk
  have hk64 : k % 2 ^ 64 % 64 = k := by omega
  rw [UInt64.toNat_shiftLeft, UInt64.toNat_ofNat', hk64, Nat.shiftLeft_eq,
    show (1 : UInt64).toNat = 1 from rfl, Nat.one_mul, Nat.mod_eq_of_lt hlt]

theorem xor_two_pow {m k : Nat} (h : m < 2 ^ (k + 1)) :
    m ^^^ 2 ^ k = if m < 2 ^ k then m + 2 ^ k else m - 2 ^ k := by
  have hpos := Nat.two_pow_pos k
  rw [← Nat.div_add_mod' (m ^^^ 2 ^ k) (2 ^ k), Nat.xor_div_two_pow, Nat.xor_mod_two_pow,
    Nat.div_self hpos, Nat.mod_self, Nat.xor_zero]
  split_ifs with hlt
  · rw [Nat.div_eq_of_lt hlt, Nat.mod_eq_of_lt hlt, Nat.zero_xor, Nat.one_mul]
    omega
  · have hdiv : m / 2 ^ k = 1 := Nat.div_eq_of_lt_le (by omega) (by rw [Nat.pow_succ] at h; omega)
    have hmod := Nat.div_add_mod' m (2 ^ k)
    rw [hdiv] at hmod ⊢
    rw [Nat.xor_self]
    omega

theorem signExtend {res : UInt64} {n : Int64} {k : Nat} (hk : k < 63)
    (hres : res.toNat = n.toUInt64.toNat % 2 ^ (k + 1)) (hlow : -(2 ^ k : Nat) ≤ n.toInt)
    (hhigh : n.toInt < (2 ^ k : Nat)) :
    (res ^^^ (1 <<< UInt64.ofNat k)) - (1 <<< UInt64.ofNat k) = n.toUInt64 := by
  have hpos := Nat.two_pow_pos k
  have hsucc : 2 ^ (k + 1) = 2 * 2 ^ k := by rw [Nat.pow_succ, Nat.mul_comm]
  have hpow : 2 ^ (k + 1) ≤ 2 ^ 63 := Nat.pow_le_pow_right (by decide) (by omega)
  have hlt : res.toNat < 2 ^ (k + 1) := by
    rw [hres]
    exact Nat.mod_lt _ (by omega)
  have hn := n.toUInt64.toNat_lt
  have hcond := toInt_cond n
  apply UInt64.toNat_inj.mp
  rw [UInt64.toNat_sub, UInt64.toNat_xor, mask_toNat (by omega), xor_two_pow hlt]
  split_ifs at hcond with hneg
  · have hsmall : n.toUInt64.toNat % 2 ^ (k + 1) = n.toUInt64.toNat :=
      Nat.mod_eq_of_lt (by omega)
    rw [hsmall] at hres
    rw [if_pos (by omega), hres]
    omega
  · have hdvd : 2 ^ 64 = 2 ^ (k + 1) * 2 ^ (63 - k) := by
      rw [← Nat.pow_add]
      congr 1
      omega
    have hlarge : n.toUInt64.toNat % 2 ^ (k + 1) =
        2 ^ (k + 1) - (2 ^ 64 - n.toUInt64.toNat) := by
      have hq := Nat.two_pow_pos (63 - k)
      have hmul : 2 ^ (k + 1) * (2 ^ (63 - k) - 1) = 2 ^ 64 - 2 ^ (k + 1) := by
        rw [Nat.mul_sub, ← hdvd, Nat.mul_one]
      have hsplit : n.toUInt64.toNat = 2 ^ (k + 1) * (2 ^ (63 - k) - 1) +
          (2 ^ (k + 1) - (2 ^ 64 - n.toUInt64.toNat)) := by
        omega
      rw [hsplit, Nat.mul_add_mod, ← hsplit]
      exact Nat.mod_eq_of_lt (by omega)
    rw [hlarge] at hres
    rw [if_neg (by omega), hres]
    omega

/-! ### `packint` and `unpackint` -/

@[simp] theorem ordered_ordered (islittle : Bool) (bs : List UInt8) :
    ordered islittle (ordered islittle bs) = bs := by
  cases islittle <;> simp [ordered]

@[simp] theorem length_ordered (islittle : Bool) (bs : List UInt8) :
    (ordered islittle bs).length = bs.length := by
  cases islittle <;> simp [ordered]

theorem length_packint (n : UInt64) (islittle : Bool) (size : Nat) (neg : Bool) :
    (packint n islittle size neg).length = size := by
  simp only [packint, length_ordered, shiftedBytes_eq]
  split_ifs with h
  · simp
    omega
  · exact length_bytes _ _

theorem take_bytes {v w n : Nat} (h : v ≤ w) : (bytes w n).take v = bytes v n := by
  obtain ⟨u, rfl⟩ := Nat.exists_eq_add_of_le h
  rw [bytes_append, List.take_left' (length_bytes v n)]

theorem drop_bytes {v w n : Nat} (h : v ≤ w) :
    (bytes w n).drop v = bytes (w - v) (n / 256 ^ v) := by
  obtain ⟨u, rfl⟩ := Nat.exists_eq_add_of_le h
  rw [bytes_append, List.drop_left' (length_bytes v n), Nat.add_sub_cancel_left]

theorem bytes_zero (w : Nat) : bytes w 0 = List.replicate w 0 := by
  induction w with
  | zero => rfl
  | succ w ih =>
      rw [bytes, Nat.zero_div, ih, List.replicate_succ]
      rfl

/-- The bytes that `packint` orders: the low ones are those of the word, the ones
above eight repeat the sign. -/
theorem take_packed (n : UInt64) (size : Nat) (neg : Bool) (islittle : Bool) :
    (ordered islittle (packint n islittle size neg)).take 8 = bytes (min size 8) n.toNat := by
  simp only [packint, ordered_ordered, shiftedBytes_eq]
  split_ifs with h
  · rw [List.take_left' (by simp; omega), take_bytes (by omega), Nat.min_eq_right (by omega)]
  · rcases Nat.le_total size 8 with hle | hle
    · rw [Nat.min_eq_left hle, List.take_of_length_le (by simpa using hle)]
    · rw [Nat.min_eq_right hle, take_bytes hle]

theorem drop_packed (n : UInt64) (size : Nat) (neg : Bool) (islittle : Bool) :
    (ordered islittle (packint n islittle size neg)).drop 8 =
      List.replicate (size - 8) (if neg then 0xFF else 0) := by
  simp only [packint, ordered_ordered, shiftedBytes_eq]
  have hn := n.toNat_lt
  split_ifs with h hneg hneg
  · rw [List.drop_left' (by simp; omega)]
  · exact absurd h.1 hneg
  · have hsize : size ≤ 8 := Nat.le_of_not_lt fun hlt => h ⟨hneg, hlt⟩
    rw [List.drop_eq_nil_of_le (by simpa using hsize), Nat.sub_eq_zero_of_le hsize]
    rfl
  · rcases Nat.le_total size 8 with hle | hle
    · rw [List.drop_eq_nil_of_le (by simpa using hle), Nat.sub_eq_zero_of_le hle]
      rfl
    · rw [drop_bytes hle, Nat.div_eq_of_lt (by omega), bytes_zero]

theorem unpacked_word (n : UInt64) (size : Nat) (neg : Bool) (islittle : Bool) :
    (((ordered islittle (packint n islittle size neg)).take 8).foldr
      (fun b (res : UInt64) => (res <<< 8) ||| b.toUInt64) 0).toNat =
        n.toNat % 256 ^ min size 8 := by
  rw [take_packed, foldr_toNat _ (by simp), value_bytes]

theorem unpackint_packint_unsigned {n : UInt64} {islittle : Bool} {size : Nat}
    (h : size < 8 → n.toNat < 2 ^ (size * 8)) :
    unpackint (packint n islittle size false) islittle size false = .ok n.toInt64 := by
  have hn := n.toNat_lt
  have hpow : 256 ^ min size 8 = 2 ^ (min size 8 * 8) := by
    rw [Nat.mul_comm, Nat.pow_mul]
  have hword : ((ordered islittle (packint n islittle size false)).take 8).foldr
      (fun b (res : UInt64) => (res <<< 8) ||| b.toUInt64) 0 = n := by
    apply UInt64.toNat_inj.mp
    rw [unpacked_word, hpow]
    apply Nat.mod_eq_of_lt
    rcases Nat.lt_or_ge size 8 with hlt | hge
    · rw [Nat.min_eq_left hlt.le]
      exact h hlt
    · rw [Nat.min_eq_right hge]
      exact hn
  unfold unpackint
  simp only [hword, drop_packed, Bool.false_eq_true, if_false, Bool.not_false, Bool.true_or,
    if_true]
  by_cases hsize : size < 8
  · rw [if_pos hsize]
  · rw [if_neg hsize, if_neg (by simp)]

theorem unpackint_packint_signed {n : Int64} {islittle : Bool} {size : Nat} (h0 : 0 < size)
    (h : size < 8 → -(2 ^ (size * 8 - 1)) ≤ n.toInt ∧ n.toInt < 2 ^ (size * 8 - 1)) :
    unpackint (packint n.toUInt64 islittle size (n < 0)) islittle size true = .ok n := by
  have hword := unpacked_word n.toUInt64 size (n < 0) islittle
  unfold unpackint
  simp only [if_true, Bool.not_true, Bool.false_or]
  generalize hres : List.foldr _ (0 : UInt64) _ = res at hword ⊢
  by_cases hsize : size < 8
  · obtain ⟨hlow, hhigh⟩ := h hsize
    have hpow : 256 ^ min size 8 = 2 ^ (size * 8 - 1 + 1) := by
      rw [Nat.min_eq_left hsize.le, show (256 : Nat) = 2 ^ 8 from rfl, ← Nat.pow_mul]
      congr 1
      omega
    rw [hpow] at hword
    rw [if_pos hsize, signExtend (by omega) hword (by exact_mod_cast hlow)
      (by exact_mod_cast hhigh)]
    rfl
  · have hn := n.toUInt64.toNat_lt
    have hres : res = n.toUInt64 := by
      apply UInt64.toNat_inj.mp
      rw [hword, Nat.min_eq_right (by omega)]
      exact Nat.mod_eq_of_lt hn
    rw [if_neg hsize, drop_packed, hres, Int64.toInt64_toUInt64]
    by_cases hneg : n < 0
    · have hnot : ¬ 0 ≤ n := by
        rw [Int64.le_iff_toInt_le]
        rw [Int64.lt_iff_toInt_lt] at hneg
        omega
      simp [hneg, hnot]
    · have hle : 0 ≤ n := by
        rw [Int64.le_iff_toInt_le]
        rw [Int64.lt_iff_toInt_lt] at hneg
        omega
      simp [hneg, hle]

/-! ## Floats -/

theorem floatOfBytes_floatBytes (host : Host) (islittle : Bool) {size n : Nat}
    (h : n < 256 ^ size) :
    host.floatOfBytes islittle (host.floatBytes islittle size n) = n := by
  unfold Host.floatOfBytes Host.floatBytes
  split_ifs with heq
  · simp [value_bytes_of_lt h]
  · simp [value_bytes_of_lt h]

theorem length_floatBytes (host : Host) (islittle : Bool) (size n : Nat) :
    (host.floatBytes islittle size n).length = size := by
  unfold Host.floatBytes
  split_ifs <;> simp

/-! ## Arguments -/

def Denotes : Value → Int → Prop
  | .int m, n => m.toInt = n
  | .float w, n => decode w = .fin n
  | _, _ => False

/-- `TValue::to_number`. -/
def asDouble : Value → Option Word
  | .int n => some (Binary64.ofInt n.toInt)
  | .float w => some w
  | _ => none

/-- An option that takes an argument, and its size. -/
abbrev Slot := PackOpt × Nat

/-- The packed bytes hold all of the argument: the string has the length of its
field, the number is a float if it is packed as one.  The float `2 ^ 63`, which is
no integer of 64 bits, is left out. -/
def Exact (host : Host) : Slot → Value → Prop
  | (.int, _), v | (.uint, _), v =>
      ∀ w, host.tryToNumber v = some (.float w) → decode w ≠ .fin (2 ^ 63)
  | (.float, size), v =>
      size = 4 → ∀ x w, host.tryToNumber v = some x → asDouble x = some w →
        ∃ f, Binary32.widen f = w
  | (.char, size), v => ∀ s, v = .str s → s.length = size
  | _, _ => True

/-- What an option gives back for an argument: the number that it stands for, as an
integer or as a double, or the string. -/
def Returned (host : Host) : Slot → Value → Value → Prop
  | (.int, _), v, r | (.uint, _), v, r =>
      ∃ x n, host.tryToNumber v = some x ∧ Denotes x n.toInt ∧ r = .int n
  | (.float, _), v, r =>
      ∃ x w, host.tryToNumber v = some x ∧ asDouble x = some w ∧ r = .float w
  | _, v, r => (∃ s, v = .str s) ∧ r = v

theorem checkAny_ok {args : List Value} {arg : Nat} {what : String} {v : Value}
    (h : checkAny args arg what = .ok v) : args[arg - 2]? = some v := by
  unfold checkAny at h
  split at h
  · cases h
  · cases h
    assumption

theorem checkString_ok {args : List Value} {arg : Nat} {s : List UInt8}
    (h : checkString args arg = .ok s) : args[arg - 2]? = some (.str s) := by
  obtain ⟨v, hv, h⟩ := StateFrame.except_bind_ok.mp h
  cases v with
  | str s' =>
      cases h
      exact checkAny_ok hv
  | int n => cases h
  | float w => cases h
  | other => cases h

theorem fromNumber_denotes {arg : Nat} {x : Value} {n : Int64}
    (h : fromNumber arg x = .ok n) (hx : ∀ w, x = .float w → decode w ≠ .fin (2 ^ 63)) :
    Denotes x n.toInt := by
  cases x with
  | int m =>
      cases h
      rfl
  | float w =>
      have hne := hx w rfl
      unfold fromNumber at h
      cases hd : decode w with
      | nan => simp [hd] at h
      | inf s => simp [hd] at h
      | fin q =>
          simp only [hd] at h hne
          split_ifs at h with hq
          obtain ⟨hfloor, hlow, hhigh⟩ := hq
          have hlt : q < 2 ^ 63 := lt_of_le_of_ne hhigh fun heq => hne (by rw [heq])
          apply floatToInteger_eq_some.mp
          unfold floatToInteger
          simp only [hd]
          rw [if_pos ⟨hlow, hlt, hfloor⟩, Except.ok.inj h]
  | str s => cases h
  | other => cases h

theorem checkInt_ok {host : Host} {args : List Value} {arg : Nat} {n : Int64}
    (h : host.checkInt args arg = .ok n) :
    ∃ v x, args[arg - 2]? = some v ∧ host.tryToNumber v = some x ∧ fromNumber arg x = .ok n := by
  obtain ⟨v, hv, h⟩ := StateFrame.except_bind_ok.mp h
  cases hx : host.tryToNumber v with
  | none => simp [hx] at h
  | some x =>
      simp only [hx] at h
      exact ⟨v, x, checkAny_ok hv, hx, h⟩

theorem checkNumber_ok {host : Host} {args : List Value} {arg : Nat} {w : Word}
    (h : host.checkNumber args arg = .ok w) :
    ∃ v x, args[arg - 2]? = some v ∧ host.tryToNumber v = some x ∧ asDouble x = some w := by
  obtain ⟨v, hv, h⟩ := StateFrame.except_bind_ok.mp h
  cases hx : host.tryToNumber v with
  | none => simp [hx] at h
  | some x =>
      simp only [hx] at h
      refine ⟨v, x, checkAny_ok hv, hx, ?_⟩
      cases x with
      | int n =>
          cases h
          rfl
      | float w' =>
          cases h
          rfl
      | str s => cases h
      | other => cases h

/-! ## Single options -/

def Sized : PackOpt → Nat → Prop
  | .int, size | .uint, size | .string, size => 0 < size
  | .float, size => size = 4 ∨ size = 8
  | .char, _ => True
  | .padding, size => size = 1
  | .zstr, size | .padalign, size | .nop, size => size = 0

def PackOpt.takesArgument : PackOpt → Bool
  | padding | padalign | nop => false
  | _ => true

/-- What unpacking an option behind the bytes that packing it wrote does. -/
def Undoes (host : Host) (size : Nat) (args : List Value) (arg : Nat)
    (opt : PackOpt) (item : Packed) (read : Except Failure Unpacked) : Prop :=
  item.bytes.length = size + item.extra ∧
    if opt.takesArgument then
      item.arg = arg ∧ ∃ v r, args[arg - 2]? = some v ∧ read = .ok ⟨some r, item.extra⟩ ∧
        Returned host (opt, size) v r
    else item.arg = arg - 1 ∧ read = .ok ⟨none, item.extra⟩

variable {host : Host} {islittle : Bool} {size arg pos : Nat} {args : List Value}
  {item : Packed} {data more : List UInt8}

theorem take_field {field : List UInt8} (hdata : data.drop pos = field ++ more)
    (hlen : field.length = size) : (data.drop pos).take size = field := by
  rw [hdata, List.take_left' hlen]

theorem undoes_int (h0 : 0 < size) (hexact : ∀ v, args[arg - 2]? = some v →
      Exact host (.int, size) v)
    (h : host.packItem islittle size args arg .int = .ok item)
    (hdata : data.drop pos = item.bytes ++ more) :
    Undoes host size args arg .int item
      (host.unpackItem islittle size data pos .int) := by
  obtain ⟨n, hn, h⟩ := StateFrame.except_bind_ok.mp h
  obtain ⟨v, x, hv, hx, hnum⟩ := checkInt_ok hn
  simp only at h
  split_ifs at h with hrange
  · cases h
  · cases h
    refine ⟨length_packint _ _ _ _, rfl, v, .int n, hv, ?_, x, n, hx, ?_, rfl⟩
    · unfold Host.unpackItem
      rw [take_field hdata (length_packint _ _ _ _), unpackint_packint_signed h0]
      · rfl
      · intro hsize
        simp only [hsize, true_and, not_or, Int.not_lt, Int.not_le] at hrange
        exact hrange
    · exact fromNumber_denotes hnum fun w hw => hexact v hv w (by rw [hx, hw])

theorem undoes_uint (hexact : ∀ v, args[arg - 2]? = some v → Exact host (.uint, size) v)
    (h : host.packItem islittle size args arg .uint = .ok item)
    (hdata : data.drop pos = item.bytes ++ more) :
    Undoes host size args arg .uint item
      (host.unpackItem islittle size data pos .uint) := by
  obtain ⟨n, hn, h⟩ := StateFrame.except_bind_ok.mp h
  obtain ⟨v, x, hv, hx, hnum⟩ := checkInt_ok hn
  simp only at h
  split_ifs at h with hrange
  · cases h
  · cases h
    refine ⟨length_packint _ _ _ _, rfl, v, .int n, hv, ?_, x, n, hx, ?_, rfl⟩
    · unfold Host.unpackItem
      rw [take_field hdata (length_packint _ _ _ _), unpackint_packint_unsigned]
      · rfl
      · intro hsize
        have hpos := Nat.two_pow_pos (size * 8)
        simp only [hsize, true_and, Nat.not_lt] at hrange
        omega
    · exact fromNumber_denotes hnum fun w hw => hexact v hv w (by rw [hx, hw])

theorem undoes_float (hsize : size = 4 ∨ size = 8)
    (hexact : ∀ v, args[arg - 2]? = some v → Exact host (.float, size) v)
    (h : host.packItem islittle size args arg .float = .ok item)
    (hdata : data.drop pos = item.bytes ++ more) :
    Undoes host size args arg .float item
      (host.unpackItem islittle size data pos .float) := by
  obtain ⟨w, hw, h⟩ := StateFrame.except_bind_ok.mp h
  obtain ⟨v, x, hv, hx, hnum⟩ := checkNumber_ok hw
  cases h
  refine ⟨length_floatBytes _ _ _ _, rfl, v, .float w, hv, ?_, x, w, hx, hnum, rfl⟩
  unfold Host.unpackItem
  rw [take_field hdata (length_floatBytes _ _ _ _)]
  rcases hsize with rfl | rfl
  · obtain ⟨f, rfl⟩ := hexact v hv rfl x w hx hnum
    have hlt := (Binary32.narrow (Binary32.widen f)).toNat_lt
    simp only [if_true]
    rw [floatOfBytes_floatBytes host islittle (by omega), UInt32.ofNat_toNat,
      Binary32.widen_narrow_widen]
  · have hlt := w.toNat_lt
    simp only [show ¬ (8 = 4) by decide, if_false]
    rw [floatOfBytes_floatBytes host islittle (by omega), UInt64.ofNat_toNat]

theorem undoes_char (hexact : ∀ v, args[arg - 2]? = some v → Exact host (.char, size) v)
    (h : host.packItem islittle size args arg .char = .ok item)
    (hdata : data.drop pos = item.bytes ++ more) :
    Undoes host size args arg .char item
      (host.unpackItem islittle size data pos .char) := by
  obtain ⟨s, hs, h⟩ := StateFrame.except_bind_ok.mp h
  have hv := checkString_ok hs
  have hlen : s.length = size := hexact _ hv s rfl
  simp only at h
  split_ifs at h with hlong
  · cases h
  · cases h
    rw [hlen, Nat.sub_self, List.replicate_zero, List.append_nil] at hdata ⊢
    refine ⟨hlen, rfl, _, .str s, hv, ?_, ⟨s, rfl⟩, rfl⟩
    unfold Host.unpackItem
    rw [take_field hdata hlen]

theorem undoes_string (h0 : 0 < size) (hfit : data.length < 2 ^ 64)
    (h : host.packItem islittle size args arg .string = .ok item)
    (hdata : data.drop pos = item.bytes ++ more) :
    Undoes host size args arg .string item
      (host.unpackItem islittle size data pos .string) := by
  obtain ⟨s, hs, h⟩ := StateFrame.except_bind_ok.mp h
  have hv := checkString_ok hs
  simp only at h
  split_ifs at h with hlong
  · cases h
  · cases h
    have hfield := length_packint (UInt64.ofNat s.length) islittle size false
    simp only [List.append_assoc] at hdata
    have htotal := congrArg List.length hdata
    simp only [List.length_drop, List.length_append, hfield] at htotal
    have hlen : (UInt64.ofNat s.length).toNat = s.length := by
      rw [UInt64.toNat_ofNat']
      exact Nat.mod_eq_of_lt (by omega)
    have hrest : data.drop (pos + size) = s ++ more := by
      rw [← List.drop_drop, hdata, List.drop_left' hfield]
    refine ⟨by simp [hfield], rfl, _, .str s, hv, ?_, ⟨s, rfl⟩, rfl⟩
    unfold Host.unpackItem
    rw [take_field hdata hfield, unpackint_packint_unsigned]
    · simp only [bind, Except.bind, UInt64.toUInt64_toInt64, hlen, hrest]
      rw [sizeT_of_lt (by omega), if_neg (by omega), List.take_left]
      rfl
    · intro hsize
      simp only [hsize, true_and, Nat.not_le] at hlong
      rwa [hlen]

theorem undoes_zstr (h0 : size = 0) (h : host.packItem islittle size args arg .zstr = .ok item)
    (hdata : data.drop pos = item.bytes ++ more) :
    Undoes host size args arg .zstr item
      (host.unpackItem islittle size data pos .zstr) := by
  obtain ⟨s, hs, h⟩ := StateFrame.except_bind_ok.mp h
  have hv := checkString_ok hs
  simp only at h
  split_ifs at h with hzero
  · cases h
  · cases h
    simp only [List.append_assoc, List.singleton_append] at hdata
    have htext : (data.drop pos).takeWhile (· ≠ 0) = s := by
      rw [hdata, List.takeWhile_append_of_pos]
      · simp
      · intro c hc
        simpa using ne_of_mem_of_not_mem hc hzero
    refine ⟨by simp [h0], rfl, _, .str s, hv, ?_, ⟨s, rfl⟩, rfl⟩
    unfold Host.unpackItem
    simp only [htext]

theorem undoes_item {opt : PackOpt} (hsized : Sized opt size)
    (hexact : opt.takesArgument → ∀ v, args[arg - 2]? = some v → Exact host (opt, size) v)
    (hfit : data.length < 2 ^ 64)
    (h : host.packItem islittle size args arg opt = .ok item)
    (hdata : data.drop pos = item.bytes ++ more) :
    Undoes host size args arg opt item (host.unpackItem islittle size data pos opt) := by
  cases opt with
  | int => exact undoes_int hsized (hexact rfl) h hdata
  | uint => exact undoes_uint (hexact rfl) h hdata
  | float => exact undoes_float hsized (hexact rfl) h hdata
  | char => exact undoes_char (hexact rfl) h hdata
  | string => exact undoes_string hsized hfit h hdata
  | zstr => exact undoes_zstr hsized h hdata
  | padding =>
      cases h
      cases hsized
      exact ⟨rfl, rfl, rfl⟩
  | padalign =>
      cases h
      cases hsized
      exact ⟨rfl, rfl, rfl⟩
  | nop =>
      cases h
      cases hsized
      exact ⟨rfl, rfl, rfl⟩

end Luatier.Pack
