import Luatier.Runtime.Value

/-!
# The numeric for loop

`FORPREP` clips a float limit to an integer and steps the index back once;
`FORLOOP` then steps it forward and tests it, before each run of the body.
Conversions of strings and the arithmetic of float loops are parameters.
-/

namespace Luatier

open Binary64

/-- What the loop instructions call. -/
structure Numeric where
  strToNumber : Addr → Option TValue
  ofInt64 : Int64 → Word
  add : Word → Word → Word
  sub : Word → Word → Word

/-- The registers `R[A]` to `R[A+3]` of a numeric loop. -/
structure ForRegs where
  index : TValue
  limit : TValue
  step : TValue
  var : TValue

/-- How a float is turned into an integer. -/
inductive IntegerMode where
  | exact | floor | ceil
  deriving DecidableEq, Repr

def IntegerMode.round : IntegerMode → Datum → Datum
  | .floor, .fin q => .fin ⌊q⌋
  | .ceil, .fin q => .fin ⌈q⌉
  | _, d => d

namespace Numeric

variable (num : Numeric)

def tryToNumber : TValue → Option TValue
  | .integer n => some (.integer n)
  | .number w => some (.number w)
  | .string s => num.strToNumber s
  | _ => none

/-- `TValue::to_number`. -/
def toNumber : TValue → Except String Word
  | .integer n => .ok (num.ofInt64 n)
  | .number w => .ok w
  | _ => .error "value is not a number"

/-- The `tointeger_mode` of a float; the upper bound is the float `2 ^ 63`. -/
def floatMode (mode : IntegerMode) (w : Word) : Option Int64 :=
  let d := mode.round (decode w)
  if d = .nan then none
  else if d.lt (.fin (-(2 ^ 63))) || (Datum.fin (2 ^ 63)).lt d then none
  else
    let i := Int64.ofInt d.truncInt64
    if mode = .exact ∧ (decode (num.ofInt64 i)).eq d = false then none
    else some i

def tointegerMode (obj : TValue) (mode : IntegerMode) : Option Int64 :=
  match num.tryToNumber obj with
  | some (.integer n) =>
      if mode = .exact then num.floatMode mode (num.ofInt64 n) else some n
  | some (.number w) => num.floatMode mode w
  | _ => none

def forlimit (obj : TValue) (step : Int64) : Option (Int64 × Bool) :=
  let mode : IntegerMode := if step < 0 then .ceil else .floor
  match num.tointegerMode obj mode with
  | some p => some (p, false)
  | none =>
      match num.tryToNumber obj with
      | none => none
      | some n =>
          match num.toNumber n with
          | .error _ => none
          | .ok w =>
              if (Datum.fin 0).lt (decode w) then
                some (Int64.maxValue, decide (step < 0))
              else some (Int64.minValue, decide (0 ≤ step))

/-- The float loop of `FORPREP`, and its errors. -/
def forprepFloat (r : ForRegs) : Except String ForRegs := do
  let some nlimit := num.tryToNumber r.limit
    | throw "'for' limit must be a number"
  let some nstep := num.tryToNumber r.step
    | throw "'for' step must be a number"
  let some ninit := num.tryToNumber r.index
    | throw "'for' initial value must be a number"
  let step ← num.toNumber nstep
  return { r with
    limit := .number (← num.toNumber nlimit)
    step := .number step
    index := .number (num.sub (← num.toNumber ninit) step) }

def forprep (r : ForRegs) : Except String ForRegs :=
  match r.index, r.step with
  | .integer init, .integer step =>
      match num.forlimit r.limit step with
      | some (ilimit, stopnow) =>
          let initv := if stopnow then 0 else init
          .ok { r with limit := .integer ilimit, index := .integer (initv - step) }
      | none => num.forprepFloat r
  | _, _ => num.forprepFloat r

/-- The float loop of `FORLOOP`. -/
def forloopFloat (r : ForRegs) : Except String (Option ForRegs) := do
  let step ← num.toNumber r.step
  let idx := num.add (← num.toNumber r.index) step
  let limit := decode (← num.toNumber r.limit)
  let stays (d d' : Datum) : Bool := d.lt d' || d.eq d'
  if if (Datum.fin 0).lt (decode step) then stays (decode idx) limit
      else stays limit (decode idx) then
    return some { r with index := .number idx, var := .number idx }
  else return none

def forloop (r : ForRegs) : Except String (Option ForRegs) :=
  match r.index, r.limit, r.step with
  | .integer index, .integer limit, .integer step =>
      let idx := index + step
      if if 0 < step then idx ≤ limit else limit ≤ idx then
        .ok (some { r with index := .integer idx, var := .integer idx })
      else .ok none
  | _, _, _ => num.forloopFloat r

variable {σ : Type}

/--
From `FORLOOP` on.  The body sees the loop variable, may assign it, and works
on a state of its own; the result is none when the fuel does not suffice.
-/
def loop (body : σ → TValue → σ × TValue) :
    Nat → ForRegs → σ → Except String (Option σ)
  | 0, _, _ => .ok none
  | fuel + 1, r, s =>
      match num.forloop r with
      | .error e => .error e
      | .ok none => .ok (some s)
      | .ok (some r) =>
          let (s, var) := body s r.var
          loop body fuel { r with var } s

def numericFor (body : σ → TValue → σ × TValue) (fuel : Nat) (r : ForRegs)
    (s : σ) : Except String (Option σ) :=
  match num.forprep r with
  | .error e => .error e
  | .ok r => num.loop body fuel r s

end Numeric

/-! ## Exact iterations -/

namespace ForLoop

def control (init step : Int64) (k : Nat) : Int := init.toInt + k * step.toInt

def Beyond (step : Int64) (limit : Datum) (x : Int) : Bool :=
  if 0 < step then limit.lt (.fin x) else (Datum.fin x).lt limit

/-- The first value beyond the limit comes after `k` runs, and is an integer. -/
structure Ends (init step : Int64) (limit : Datum) (k : Nat) : Prop where
  within : ∀ j < k, ¬ Beyond step limit (control init step j)
  beyond : Beyond step limit (control init step k)
  low : -(2 ^ 63) ≤ control init step k
  high : control init step k < 2 ^ 63

def visited (init step : Int64) (k : Nat) : List TValue :=
  (List.range k).map fun j => .integer (Int64.ofInt (control init step j))

/-- Whatever the body does, it runs on exactly these values, in order. -/
def Visits (num : Numeric) (init step : Int64) (limit var : TValue)
    (values : List TValue) : Prop :=
  ∀ (σ : Type) (body : σ → TValue → σ × TValue) (s : σ) (fuel : Nat),
    values.length < fuel →
    num.numericFor body fuel ⟨.integer init, limit, .integer step, var⟩ s =
      .ok (some (values.foldl (fun s v => (body s v).1) s))

variable {num : Numeric} {init step limit : Int64} {k : Nat}

theorem control_zero : control init step 0 = init.toInt := by
  simp [control]

theorem control_succ (k : Nat) :
    control init step (k + 1) = control init step k + step.toInt := by
  simp only [control, Nat.cast_add, Nat.cast_one]
  ring

theorem visited_succ (h : (init + step).toInt = init.toInt + step.toInt) :
    visited init step (k + 1) =
      .integer init :: visited (init + step) step k := by
  have hshift (j : Nat) :
      control init step (j + 1) = control (init + step) step j := by
    simp only [control, h, Nat.cast_add, Nat.cast_one]
    ring
  simp only [visited, List.range_succ_eq_map, List.map_cons, List.map_map,
    control_zero, Int64.ofInt_toInt, List.cons.injEq, true_and]
  refine List.map_congr_left fun j _ => ?_
  simp only [Function.comp_apply, hshift]

theorem forloop_integers (index : Int64) (var : TValue) :
    num.forloop ⟨.integer index, .integer limit, .integer step, var⟩ =
      .ok (if Beyond step (.fin limit.toInt) (index + step).toInt then none
        else some ⟨.integer (index + step), .integer limit, .integer step,
          .integer (index + step)⟩) := by
  simp only [Numeric.forloop, Beyond, Datum.lt, Int.cast_lt]
  by_cases hs : 0 < step
  · simp only [if_pos hs, Int64.le_iff_toInt_le, decide_eq_true_eq]
    by_cases h : limit.toInt < (index + step).toInt
    · rw [if_neg (by omega), if_pos h]
    · rw [if_pos (by omega), if_neg h]
  · simp only [if_neg hs, Int64.le_iff_toInt_le, decide_eq_true_eq]
    by_cases h : (index + step).toInt < limit.toInt
    · rw [if_neg (by omega), if_pos h]
    · rw [if_pos (by omega), if_neg h]

theorem toInt_add_of_fits {a b : Int64} (low : -(2 ^ 63) ≤ a.toInt + b.toInt)
    (high : a.toInt + b.toInt < 2 ^ 63) : (a + b).toInt = a.toInt + b.toInt := by
  rw [Int64.toInt_add]
  exact Int.bmod_eq_of_le (by omega) (by omega)

theorem Ends.fits {d : Datum} (h : Ends init step d (k + 1)) :
    (init + step).toInt = init.toInt + step.toInt := by
  have hlow := h.low
  have hhigh := h.high
  have hinit := init.le_toInt
  have hinit' := init.toInt_lt
  have hk : control init step (k + 1) =
      init.toInt + step.toInt + k * step.toInt := by
    rw [control_succ, control]
    ring
  rw [hk] at hlow hhigh
  rcases le_total 0 step.toInt with hs | hs
  · have : 0 ≤ (k : Int) * step.toInt := mul_nonneg (Int.natCast_nonneg k) hs
    exact toInt_add_of_fits (by omega) (by omega)
  · have : (k : Int) * step.toInt ≤ 0 :=
      mul_nonpos_of_nonneg_of_nonpos (Int.natCast_nonneg k) hs
    exact toInt_add_of_fits (by omega) (by omega)

theorem control_tail (h : (init + step).toInt = init.toInt + step.toInt) (j : Nat) :
    control (init + step) step j = control init step (j + 1) := by
  simp only [control, h, Nat.cast_add, Nat.cast_one]
  ring

theorem Ends.tail {d : Datum} (h : Ends init step d (k + 1)) :
    Ends (init + step) step d k where
  within j hj := by
    rw [control_tail h.fits]
    exact h.within (j + 1) (by omega)
  beyond := by
    rw [control_tail h.fits]
    exact h.beyond
  low := by
    rw [control_tail h.fits]
    exact h.low
  high := by
    rw [control_tail h.fits]
    exact h.high

theorem loop_visits (h : Ends init step (.fin limit.toInt) k) {σ : Type}
    (body : σ → TValue → σ × TValue) (var : TValue) (s : σ) {fuel : Nat}
    (hfuel : k < fuel) :
    num.loop body fuel
      ⟨.integer (init - step), .integer limit, .integer step, var⟩ s =
      .ok (some ((visited init step k).foldl (fun s v => (body s v).1) s)) := by
  induction k generalizing init var s fuel with
  | zero =>
      obtain ⟨fuel, rfl⟩ := Nat.exists_eq_add_of_lt hfuel
      have hbeyond := h.beyond
      rw [control_zero] at hbeyond
      rw [Nat.zero_add, Numeric.loop, forloop_integers, Int64.sub_add_cancel,
        if_pos hbeyond]
      rfl
  | succ k ih =>
      obtain ⟨fuel, rfl⟩ := Nat.exists_eq_add_of_lt (Nat.zero_lt_of_lt hfuel)
      have hwithin := h.within 0 (Nat.succ_pos k)
      rw [control_zero] at hwithin
      rw [Nat.zero_add, Numeric.loop, forloop_integers, Int64.sub_add_cancel,
        if_neg hwithin]
      have hback : init = init + step - step := (Int64.add_sub_cancel init step).symm
      simp only
      conv => lhs; rw [hback]
      rw [ih h.tail _ _ (by omega), visited_succ h.fits, List.foldl_cons,
        ← hback]

/-! ## The limit that `FORPREP` leaves -/

def bound (step : Int64) (q : ℚ) : Int := if step < 0 then ⌈q⌉ else ⌊q⌋

def mode (step : Int64) : IntegerMode := if step < 0 then .ceil else .floor

theorem mode_round_fin (q : ℚ) : (mode step).round (.fin q) = .fin (bound step q) := by
  unfold mode bound
  split <;> rfl

theorem mode_ne_exact (step : Int64) : mode step ≠ .exact := by
  unfold mode
  split <;> decide

theorem floatMode_fin {w : Word} {q : ℚ} (hd : decode w = .fin q) :
    num.floatMode (mode step) w =
      if bound step q < -(2 ^ 63) ∨ 2 ^ 63 < bound step q then none
      else if bound step q = 2 ^ 63 then some Int64.minValue
      else some (Int64.ofInt (bound step q)) := by
  have hlow : (((bound step q : Int) : ℚ) < -(2 ^ 63)) ↔
      bound step q < -(2 ^ 63) := by exact_mod_cast Iff.rfl
  have hhigh : ((2 : ℚ) ^ 63 < ((bound step q : Int) : ℚ)) ↔
      2 ^ 63 < bound step q := by exact_mod_cast Iff.rfl
  simp only [Numeric.floatMode, hd, mode_round_fin, Datum.lt, reduceCtorEq,
    if_false, Bool.or_eq_true, decide_eq_true_eq, hlow, hhigh, mode_ne_exact step,
    false_and]
  by_cases hout : bound step q < -(2 ^ 63) ∨ 2 ^ 63 < bound step q
  · rw [if_pos hout, if_pos hout]
  · rw [if_neg hout, if_neg hout]
    by_cases htop : bound step q = 2 ^ 63
    · rw [if_pos htop, htop]
      simp only [Datum.truncInt64, Int.floor_intCast, Int.ceil_intCast, ite_self]
      rw [if_neg (by omega)]
      rfl
    · rw [if_neg htop, Datum.truncInt64_intCast (by omega) (by omega)]

theorem floatMode_of_not_fin {w : Word} (hd : ∀ q, decode w ≠ .fin q) :
    num.floatMode (mode step) w = none := by
  have hround : (mode step).round (decode w) = decode w := by
    cases hw : decode w with
    | nan => unfold mode; split <;> rfl
    | inf s => unfold mode; split <;> rfl
    | fin q => exact absurd hw (hd q)
  rw [Numeric.floatMode, hround]
  cases hw : decode w with
  | nan => simp
  | inf s => cases s <;> simp [Datum.lt]
  | fin q => exact absurd hw (hd q)

theorem forlimit_number (w : Word) :
    num.forlimit (.number w) step =
      match num.floatMode (mode step) w with
      | some p => some (p, false)
      | none =>
          if (Datum.fin 0).lt (decode w) then
            some (Int64.maxValue, decide (step < 0))
          else some (Int64.minValue, decide (0 ≤ step)) := rfl

theorem bound_nonneg (step : Int64) {q : ℚ} (h : 0 < q) : 0 ≤ bound step q := by
  unfold bound
  split
  · exact Int.ceil_nonneg h.le
  · exact Int.floor_nonneg.mpr h.le

theorem bound_nonpos (step : Int64) {q : ℚ} (h : ¬ 0 < q) : bound step q ≤ 0 := by
  have hq : q ≤ 0 := not_lt.mp h
  unfold bound
  split
  · exact Int.ceil_le.mpr (by simpa using hq)
  · exact Int.cast_nonpos.mp ((Int.floor_le q).trans hq)

theorem beyond_bound (hstep : step ≠ 0) (q : ℚ) (x : Int) :
    Beyond step (.fin (bound step q)) x = Beyond step (.fin q) x := by
  have htri : 0 < step ∨ step < 0 := by
    simp only [Int64.lt_iff_toInt_lt, Int64.toInt_zero]
    have : step.toInt ≠ 0 := fun h => hstep (Int64.toInt_inj.mp h)
    omega
  unfold Beyond bound
  rcases htri with hs | hs
  · have hn : ¬ step < 0 := by
      simp only [Int64.lt_iff_toInt_lt, Int64.toInt_zero] at hs ⊢
      omega
    simp only [if_pos hs, if_neg hn, Datum.lt, Int.cast_lt, Int.floor_lt]
  · have hn : ¬ 0 < step := by
      simp only [Int64.lt_iff_toInt_lt, Int64.toInt_zero] at hs ⊢
      omega
    simp only [if_neg hn, if_pos hs, Datum.lt, Int.cast_lt, Int.lt_ceil]

def datum? : TValue → Option Datum
  | .integer n => some (.fin n.toInt)
  | .number w => some (decode w)
  | _ => none

def Fits (x : Int) : Prop := -(2 ^ 63) ≤ x ∧ x < 2 ^ 63

/-- What `forlimit` makes of a limit, by the way the loop then goes. -/
inductive Prepared (step : Int64) (d : Datum) : Option (Int64 × Bool) → Prop
  | clipped (p : Int64) (hnan : d ≠ .nan)
      (h : ∀ x, Fits x → Beyond step (.fin p.toInt) x = Beyond step d x) :
      Prepared step d (some (p, false))
  | never (r : Option (Int64 × Bool)) (hnan : d ≠ .nan)
      (h : ∀ x, Fits x → Beyond step d x = false) : Prepared step d r
  | stop (p : Int64) (hzero : Beyond step (.fin p.toInt) 0 = true)
      (h : d = .nan ∨ ∀ x, Fits x → Beyond step d x = true) :
      Prepared step d (some (p, true))
  | wrong (hs : step < 0) (h : d = .nan ∨ d = .fin (2 ^ 63)) :
      Prepared step d (some (Int64.minValue, false))

theorem step_cases (hstep : step ≠ 0) :
    (0 < step ∧ ¬ step < 0 ∧ 0 ≤ step) ∨ (step < 0 ∧ ¬ 0 < step ∧ ¬ 0 ≤ step) := by
  have : step.toInt ≠ 0 := fun h => hstep (Int64.toInt_inj.mp h)
  simp only [Int64.lt_iff_toInt_lt, Int64.le_iff_toInt_le, Int64.toInt_zero]
  omega

theorem prepared_min (hstep : step ≠ 0) {d : Datum}
    (hup : 0 < step → d = .nan ∨ ∀ x, Fits x → Beyond step d x = true)
    (hdown : step < 0 → d = .nan ∨ ∀ x, Fits x → Beyond step d x = false) :
    Prepared step d (some (Int64.minValue, decide (0 ≤ step))) := by
  rcases step_cases hstep with ⟨hs, -, hle⟩ | ⟨hs, -, hle⟩
  · rw [decide_eq_true hle]
    refine .stop _ ?_ (hup hs)
    simp [Beyond, hs, Datum.lt]
  · rw [decide_eq_false hle]
    by_cases hd : d = .nan
    · exact .wrong hs (.inl hd)
    · exact .never _ hd ((hdown hs).resolve_left hd)

theorem prepared_max (hstep : step ≠ 0) {d : Datum} (hd : d ≠ .nan)
    (hup : 0 < step → ∀ x, Fits x → Beyond step d x = false)
    (hdown : step < 0 → ∀ x, Fits x → Beyond step d x = true) :
    Prepared step d (some (Int64.maxValue, decide (step < 0))) := by
  rcases step_cases hstep with ⟨hs, hlt, -⟩ | ⟨hs, hlt, -⟩
  · rw [decide_eq_false hlt]
    exact .never _ hd (hup hs)
  · rw [decide_eq_true hs]
    refine .stop _ ?_ (.inr (hdown hs))
    simp [Beyond, hlt, Datum.lt, Int64.toInt_maxValue]

theorem prepared_outside (hstep : step ≠ 0) {d : Datum}
    (hfin : ∀ q, d = .fin q → bound step q < -(2 ^ 63) ∨ 2 ^ 63 < bound step q) :
    Prepared step d
      (if (Datum.fin 0).lt d then some (Int64.maxValue, decide (step < 0))
        else some (Int64.minValue, decide (0 ≤ step))) := by
  have hneg (hs : step < 0) : ¬ 0 < step := by
    rcases step_cases hstep with ⟨-, h, -⟩ | ⟨-, h, -⟩
    · exact absurd hs h
    · exact h
  cases d with
  | nan => exact prepared_min hstep (fun _ => .inl rfl) fun _ => .inl rfl
  | inf s =>
      cases s with
      | false =>
          refine prepared_max hstep (by simp) (fun hs x _ => ?_) fun hs x _ => ?_
          · simp [Beyond, hs, Datum.lt]
          · simp [Beyond, hneg hs, Datum.lt]
      | true =>
          refine prepared_min hstep (fun hs => .inr fun x _ => ?_)
            fun hs => .inr fun x _ => ?_
          · simp [Beyond, hs, Datum.lt]
          · simp [Beyond, hneg hs, Datum.lt]
  | fin q =>
      have hout := hfin q rfl
      have hbeyond (x : Int) : Beyond step (.fin q) x =
          if 0 < step then decide (bound step q < x) else decide (x < bound step q) := by
        rw [← beyond_bound hstep]
        simp only [Beyond, Datum.lt, Int.cast_lt]
      by_cases hq : 0 < q
      · have hnonneg := bound_nonneg step hq
        rw [if_pos (by simpa [Datum.lt] using hq)]
        refine prepared_max hstep (by simp) (fun hs x hx => ?_) fun hs x hx => ?_
        · obtain ⟨-, hx⟩ := hx
          rw [hbeyond, if_pos hs]
          exact decide_eq_false (by omega)
        · obtain ⟨-, hx⟩ := hx
          rw [hbeyond, if_neg (hneg hs)]
          exact decide_eq_true (by omega)
      · have hnonpos := bound_nonpos step hq
        rw [if_neg (by simpa [Datum.lt] using hq)]
        refine prepared_min hstep (fun hs => .inr fun x hx => ?_)
          fun hs => .inr fun x hx => ?_
        · obtain ⟨hx, -⟩ := hx
          rw [hbeyond, if_pos hs]
          exact decide_eq_true (by omega)
        · obtain ⟨hx, -⟩ := hx
          rw [hbeyond, if_neg (hneg hs)]
          exact decide_eq_false (by omega)

theorem prepared_top (hstep : step ≠ 0) {w : Word} {q : ℚ} (hq : decode w = .fin q)
    (htop : bound step q = 2 ^ 63) :
    Prepared step (.fin q) (some (Int64.minValue, false)) := by
  rcases step_cases hstep with ⟨hs, -, -⟩ | ⟨hs, -, -⟩
  · refine .never _ (by simp) fun x hx => ?_
    obtain ⟨-, hx⟩ := hx
    rw [← beyond_bound hstep, htop]
    simp only [Beyond, if_pos hs, Datum.lt, Int.cast_lt]
    exact decide_eq_false (by omega)
  · refine .wrong hs (.inr ?_)
    rw [bound, if_pos hs] at htop
    have hlarge : (2 : ℚ) ^ 52 ≤ q := by
      have h := Int.ceil_lt_add_one q
      rw [htop] at h
      push_cast at h
      linarith
    obtain ⟨n, rfl⟩ := decode_integral_of_large hq (hlarge.trans (le_abs_self _))
    rw [Int.ceil_intCast] at htop
    rw [htop]
    norm_num

theorem forlimit_prepared (num : Numeric) (hstep : step ≠ 0) {limit : TValue} {d : Datum}
    (hlimit : datum? limit = some d) :
    Prepared step d (num.forlimit limit step) := by
  cases limit with
  | integer n =>
      obtain rfl := Option.some.inj hlimit
      have h : num.forlimit (.integer n) step = some (n, false) := by
        have hm := mode_ne_exact step
        unfold mode at hm
        simp only [Numeric.forlimit, Numeric.tointegerMode, Numeric.tryToNumber,
          if_neg hm]
      rw [h]
      exact .clipped n (by simp) fun _ _ => rfl
  | number w =>
      obtain rfl := Option.some.inj hlimit
      rw [forlimit_number]
      by_cases hfin : ∃ q, decode w = .fin q
      · obtain ⟨q, hq⟩ := hfin
        rw [floatMode_fin hq]
        by_cases hout : bound step q < -(2 ^ 63) ∨ 2 ^ 63 < bound step q
        · rw [if_pos hout]
          refine prepared_outside hstep fun q' hq' => ?_
          rw [hq] at hq'
          exact Datum.fin.inj hq' ▸ hout
        · rw [if_neg hout, hq]
          by_cases htop : bound step q = 2 ^ 63
          · rw [if_pos htop]
            exact prepared_top hstep hq htop
          · rw [if_neg htop]
            refine .clipped _ (by simp) fun x _ => ?_
            rw [Int64.toInt_ofInt_of_le (by omega) (by omega)]
            exact beyond_bound hstep q x
      · have hno (q : ℚ) : decode w ≠ .fin q := fun h => hfin ⟨q, h⟩
        rw [floatMode_of_not_fin hno]
        exact prepared_outside hstep fun q hq => absurd hq (hno q)
  | _ => contradiction

/-- The loop runs the iterations that the limit asks for, and no others. -/
def Exact (num : Numeric) (init step : Int64) (limit var : TValue) (d : Datum) :
    Prop :=
  (∀ k, Ends init step d k →
    Visits num init step limit var (visited init step k)) ∧
  (d = .nan → Visits num init step limit var (visited init step 0))

theorem Ends.congr {d d' : Datum} (h : Ends init step d k)
    (hd : ∀ x, Fits x → Beyond step d' x = Beyond step d x) :
    Ends init step d' k := by
  have hinit := init.le_toInt
  have hinit' := init.toInt_lt
  have hfits {j : Nat} (hj : j ≤ k) : Fits (control init step j) := by
    have hlow := h.low
    have hhigh := h.high
    unfold control at hlow hhigh ⊢
    have hj' : (j : Int) ≤ k := by exact_mod_cast hj
    rcases le_total 0 step.toInt with hs | hs
    · have h1 : 0 ≤ (j : Int) * step.toInt := mul_nonneg (Int.natCast_nonneg j) hs
      have h2 := mul_le_mul_of_nonneg_right hj' hs
      exact ⟨by omega, by omega⟩
    · have h1 : (j : Int) * step.toInt ≤ 0 :=
        mul_nonpos_of_nonneg_of_nonpos (Int.natCast_nonneg j) hs
      have h2 := mul_le_mul_of_nonpos_right hj' hs
      exact ⟨by omega, by omega⟩
  exact
    { within := fun j hj => by
        rw [hd _ (hfits hj.le)]
        exact h.within j hj
      beyond := by
        rw [hd _ (hfits le_rfl)]
        exact h.beyond
      low := h.low
      high := h.high }

theorem fits_init (init : Int64) : Fits init.toInt := ⟨init.le_toInt, init.toInt_lt⟩

def start (init : Int64) : Bool → Int64
  | true => 0
  | false => init

theorem visited_zero : visited init step 0 = [] := rfl

theorem forprep_clipped {limit : TValue} {p : Int64} {stop : Bool}
    (h : num.forlimit limit step = some (p, stop)) (var : TValue) :
    num.forprep ⟨.integer init, limit, .integer step, var⟩ =
      .ok ⟨.integer (start init stop - step), .integer p, .integer step, var⟩ := by
  simp only [Numeric.forprep, h]
  cases stop <;> rfl

theorem visits_of_clipped (init : Int64) {limit : TValue} (var : TValue) {p : Int64}
    {stop : Bool} (h : num.forlimit limit step = some (p, stop))
    (hends : Ends (start init stop) step (.fin p.toInt) k) :
    Visits num init step limit var (visited (start init stop) step k) := by
  intro σ body s fuel hfuel
  rw [Numeric.numericFor, forprep_clipped h]
  refine loop_visits hends body var s ?_
  rwa [visited, List.length_map, List.length_range] at hfuel

theorem visits_of_stop (init : Int64) {limit : TValue} (var : TValue) {p : Int64}
    (h : num.forlimit limit step = some (p, true))
    (hzero : Beyond step (.fin p.toInt) 0 = true) :
    Visits num init step limit var (visited init step 0) := by
  have hends : Ends 0 step (.fin p.toInt) 0 :=
    { within := fun j hj => absurd hj (Nat.not_lt_zero j)
      beyond := by
        rw [control_zero]
        exact hzero
      low := by
        rw [control_zero]
        decide
      high := by
        rw [control_zero]
        decide }
  have hvisits := visits_of_clipped init var h hends
  rwa [visited_zero] at hvisits ⊢

theorem not_visits_of_min (init : Int64) {limit : TValue} (var : TValue)
    (hs : step < 0)
    (h : num.forlimit limit step = some (Int64.minValue, false)) :
    ¬ Visits num init step limit var (visited init step 0) := by
  intro hvisits
  have hrun := hvisits Unit (fun s v => (s, v)) () 1 Nat.one_pos
  have hnot : ¬ 0 < step := by
    simp only [Int64.lt_iff_toInt_lt, Int64.toInt_zero] at hs ⊢
    omega
  have hwithin : ¬ Beyond step (.fin Int64.minValue.toInt) init.toInt = true := by
    have hlow := init.le_toInt
    simp only [Beyond, if_neg hnot, Datum.lt, Int.cast_lt, decide_eq_true_eq,
      Int64.toInt_minValue]
    omega
  simp only [Numeric.numericFor, forprep_clipped h, Numeric.loop, forloop_integers,
    start, Int64.sub_add_cancel, if_neg hwithin] at hrun
  cases hrun

theorem forlimit_wrong (num : Numeric) {limit : TValue} {d : Datum}
    (hlimit : datum? limit = some d)
    (hs : step < 0) (hd : d = .nan ∨ d = .fin (2 ^ 63)) :
    num.forlimit limit step = some (Int64.minValue, false) := by
  have hle : ¬ 0 ≤ step := by
    simp only [Int64.lt_iff_toInt_lt, Int64.le_iff_toInt_le, Int64.toInt_zero] at hs ⊢
    omega
  cases limit with
  | integer n =>
      obtain rfl := Option.some.inj hlimit
      have hn := n.toInt_lt
      rcases hd with hd | hd
      · contradiction
      · have : (n.toInt : ℚ) < 2 ^ 63 := by exact_mod_cast hn
        exact absurd (Datum.fin.inj hd) this.ne
  | number w =>
      have hw := Option.some.inj hlimit
      rw [forlimit_number]
      rcases hd with rfl | rfl
      · rw [floatMode_of_not_fin (by simp [hw]), hw]
        simp [Datum.lt, hle]
      · have htop : bound step (2 ^ 63) = 2 ^ 63 := by
          rw [bound, if_pos hs]
          have hceil := Int.ceil_intCast (R := ℚ) (2 ^ 63)
          rwa [Int.cast_pow, Int.cast_ofNat] at hceil
        rw [floatMode_fin hw, htop, if_neg (by decide), if_pos rfl]
  | _ => contradiction

/--
The loop is exact unless it counts down and its limit is a not-a-number or the
float `2 ^ 63`, which are both clipped to the least integer.
-/
theorem numericFor_exact_iff (num : Numeric) (init step : Int64) (limit var : TValue)
    {d : Datum} (hstep : step ≠ 0) (hlimit : datum? limit = some d) :
    Exact num init step limit var d ↔
      ¬ (step < 0 ∧ (d = .nan ∨ d = .fin (2 ^ 63))) := by
  constructor
  · rintro ⟨hends, hnan⟩ ⟨hs, hd⟩
    have hruns := not_visits_of_min init var hs
      (forlimit_wrong num hlimit hs hd)
    rcases hd with hd | rfl
    · exact hruns (hnan hd)
    · have hinit := fits_init init
      refine hruns (hends 0 ⟨fun j hj => absurd hj (Nat.not_lt_zero j), ?_, ?_, ?_⟩)
      · have hlt : (init.toInt : ℚ) < 2 ^ 63 := by exact_mod_cast hinit.2
        have hnot : ¬ 0 < step := by
          simp only [Int64.lt_iff_toInt_lt, Int64.toInt_zero] at hs ⊢
          omega
        rw [control_zero, Beyond, if_neg hnot]
        exact decide_eq_true hlt
      · rw [control_zero]
        exact hinit.1
      · rw [control_zero]
        exact hinit.2
  · intro hgood
    have hprepared := forlimit_prepared num hstep hlimit
    generalize hr : num.forlimit limit step = r' at hprepared
    cases hprepared with
    | clipped p hnan h =>
        refine ⟨fun k hk => ?_, fun hd => absurd hd hnan⟩
        have hvisits := visits_of_clipped init var hr (hk.congr h)
        exact hvisits
    | never r hnan h =>
        refine ⟨fun k hk => ?_, fun hd => absurd hd hnan⟩
        have := hk.beyond
        rw [h _ ⟨hk.low, hk.high⟩] at this
        contradiction
    | stop p hzero h =>
        have hvisits := visits_of_stop init var hr hzero
        refine ⟨fun k hk => ?_, fun _ => hvisits⟩
        have hk0 : k = 0 := by
          by_contra hne
          have hwithin := hk.within 0 (Nat.pos_of_ne_zero hne)
          rw [control_zero] at hwithin
          rcases h with rfl | h
          · have := hk.beyond
            unfold Beyond at this
            split at this <;> simp [Datum.lt] at this
          · exact hwithin (h _ (fits_init init))
        subst hk0
        exact hvisits
    | wrong hs h => exact absurd ⟨hs, h⟩ hgood

/-- Conversions for loops over integers, where no string or sum is converted. -/
def plainNumeric : Numeric where
  strToNumber _ := none
  ofInt64 _ := 0
  add w _ := w
  sub w _ := w

def topWord : Word := 0x43E0000000000000

def nanWord : Word := 0x7FF8000000000000

theorem decode_topWord : decode topWord = .fin (2 ^ 63) := by decide +kernel

theorem decode_nanWord : decode nanWord = .nan := by decide

/-- `for i = 1, 2 ^ 63, -1` and `for i = 1, 0/0, -1` run their bodies. -/
theorem numericFor_passes_limit :
    ¬ Exact plainNumeric 1 (-1) (.number topWord) .nil (.fin (2 ^ 63)) ∧
    ¬ Exact plainNumeric 1 (-1) (.number nanWord) .nil .nan := by
  have hs : (-1 : Int64) < 0 := by decide
  constructor
  · intro h
    refine not_visits_of_min 1 .nil hs (forlimit_wrong plainNumeric ?_ hs (.inr rfl))
      (h.1 0 ⟨fun j hj => absurd hj (Nat.not_lt_zero j), ?_, ?_, ?_⟩)
    · rw [datum?, decode_topWord]
    · decide
    · decide
    · decide
  · intro h
    refine not_visits_of_min 1 .nil hs (forlimit_wrong plainNumeric ?_ hs (.inl rfl))
      (h.2 rfl)
    rw [datum?, decode_nanWord]

theorem numericFor_exact_ten :
    Exact plainNumeric 1 1 (.integer 10) .nil (.fin 10) :=
  (numericFor_exact_iff plainNumeric 1 1 (.integer 10) .nil (by decide) rfl).mpr
    fun h => absurd h.1 (by decide)

end ForLoop

end Luatier
