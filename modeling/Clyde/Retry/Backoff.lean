import Mathlib.Data.Int.ConditionallyCompleteOrder
import Mathlib.Data.Rat.Floor
import Mathlib.Tactic.NormNum
import Clyde.Foundation.Text

/-!
# The delay before a retry

`DelayForAttempt` (`internal/adapter/retry/retry.go`) and the check of a policy
(`normalizeAdapterRetryPolicy`, `internal/config/load.go`). The delay grows by the multiplier with
each attempt. It is computed as a number, converted to a 64-bit duration, and only then capped.

`delays_ordered_iff` says when the delays of an accepted policy stay between zero and the cap, are
positive, and do not decrease: the last delay must not leave the 64-bit range, and the multiplier
must not be below one.

Scope. Floating-point numbers are exact rationals, without infinities and NaN. The choice of the
policy is left out: it calls `DelayForAttempt` with an attempt below `max_attempts`.
-/

set_option autoImplicit false

namespace Clyde.Retry

open Foundation ByteCodec Text

/-- The fields of a policy that its check and its delays read. Durations are 64-bit nanoseconds. -/
structure AdapterRetryPolicy where
  name : Bytes
  maxAttempts : ℤ
  initialDelay : ℤ
  initialDelay_lt : initialDelay < 2 ^ 63
  maxDelay : ℤ
  multiplier : ℚ
  jitterFraction : ℚ

/-- Trims the name and checks the numbers. -/
def normalizeAdapterRetryPolicy (policy : AdapterRetryPolicy) : Except Bytes AdapterRetryPolicy :=
  let name := trimSpace policy.name
  let refuse (text : String) := .error (bytesOf "adapter.retry.policies." ++ name ++ bytesOf text)
  if name = [] then .error (bytesOf "adapter.retry.policies contains a policy without name")
  else if policy.maxAttempts < 1 then refuse ".max_attempts must be at least 1"
  else if policy.initialDelay < 0 then refuse ".initial_delay must be non-negative"
  else if policy.maxDelay < 0 then refuse ".max_delay must be non-negative"
  else if 0 < policy.maxDelay ∧ policy.maxDelay < policy.initialDelay then
    refuse ".initial_delay must be less than or equal to max_delay"
  else if policy.multiplier < 0 then refuse ".multiplier must be non-negative"
  else if policy.jitterFraction < 0 ∨ 1 < policy.jitterFraction then
    refuse ".jitter_fraction must be between 0 and 1"
  else .ok { policy with name := name }

/-- A conversion to durations: it truncates the numbers inside the 64-bit range, and gives any
64-bit value outside. -/
structure Conversion where
  convert : ℚ → ℤ
  range : ∀ value, -2 ^ 63 ≤ convert value ∧ convert value < 2 ^ 63
  truncates : ∀ value, 0 ≤ value → value < 2 ^ 63 → convert value = ⌊value⌋

namespace AdapterRetryPolicy

variable (policy : AdapterRetryPolicy) (conversion : Conversion) (attempt : ℤ)

/-- The multiplier, where zero stands for one. -/
def factor : ℚ :=
  if policy.multiplier = 0 then 1 else policy.multiplier

def power : ℚ := policy.initialDelay * policy.factor ^ (attempt - 1).toNat

def grownDelay : ℤ :=
  let delay := max policy.initialDelay 0
  if 1 < attempt ∧ 0 < delay then
    conversion.convert (delay * policy.factor ^ (attempt - 1).toNat)
  else delay

def capped (delay : ℤ) : ℤ :=
  if 0 < policy.maxDelay ∧ policy.maxDelay < delay then policy.maxDelay else delay

def delayForAttempt (random : ℚ) : ℤ :=
  let delay := policy.capped (policy.grownDelay conversion attempt)
  if delay ≤ 0 ∨ policy.jitterFraction ≤ 0 then delay
  else
    let jitterRange := delay * policy.jitterFraction
    let jittered := conversion.convert (delay + (random * 2 - 1) * jitterRange)
    if jittered < 0 then 0 else policy.capped jittered

/-- The delays of the attempts: inside the cap, positive and not decreasing. -/
structure DelaysOrdered : Prop where
  bounded : ∀ attempt ∈ Set.Icc 1 policy.maxAttempts, ∀ random ∈ Set.Ico (0 : ℚ) 1,
    0 < policy.maxDelay →
      policy.delayForAttempt conversion attempt random ∈ Set.Icc 0 policy.maxDelay
  positive : ∀ attempt ∈ Set.Icc 1 policy.maxAttempts, ∀ random ∈ Set.Ico (0 : ℚ) 1,
    0 < policy.initialDelay → policy.jitterFraction = 0 → 1 ≤ policy.multiplier →
      0 < policy.delayForAttempt conversion attempt random
  monotone : ∀ attempt ∈ Set.Ico 1 policy.maxAttempts, ∀ random ∈ Set.Ico (0 : ℚ) 1,
    ∀ next ∈ Set.Ico (0 : ℚ) 1, policy.jitterFraction = 0 →
    policy.delayForAttempt conversion attempt random ≤
        policy.delayForAttempt conversion (attempt + 1) next

/-- The multiplier does not shrink a delay, and a delay that is not only clamped at zero stays in
the 64-bit range. -/
structure Tame : Prop where
  grows : 0 < policy.initialDelay → 1 < policy.maxAttempts →
    policy.jitterFraction = 0 → 1 ≤ policy.factor
  inRange : policy.jitterFraction = 0 ∨ 0 < policy.maxDelay →
    policy.power policy.maxAttempts < 2 ^ 63

variable {policy : AdapterRetryPolicy} {conversion : Conversion} {attempt : ℤ}

/-- What the check ensures. -/
structure Checked (policy : AdapterRetryPolicy) : Prop where
  maxAttempts : 1 ≤ policy.maxAttempts
  initialDelay : 0 ≤ policy.initialDelay
  initialDelay_le : 0 < policy.maxDelay → policy.initialDelay ≤ policy.maxDelay
  multiplier : 0 ≤ policy.multiplier
  jitterFraction : 0 ≤ policy.jitterFraction

theorem checked_of_normalize {written : AdapterRetryPolicy}
    (hpolicy : normalizeAdapterRetryPolicy written = .ok policy) : policy.Checked := by
  unfold normalizeAdapterRetryPolicy at hpolicy
  dsimp only at hpolicy
  split_ifs at hpolicy with _ hattempts hinitial _ hcap hmultiplier hjitter
  cases hpolicy
  rw [not_or, not_lt] at hjitter
  exact ⟨not_lt.mp hattempts, not_lt.mp hinitial,
    fun hpositive ↦ not_lt.mp (hcap ⟨hpositive, ·⟩), not_lt.mp hmultiplier, hjitter.1⟩

section

variable (hchecked : policy.Checked)
include hchecked

theorem Checked.factor_pos : 0 < policy.factor := by
  unfold factor
  split_ifs with hzero
  · exact one_pos
  · exact lt_of_le_of_ne hchecked.multiplier (Ne.symm hzero)

theorem Checked.power_nonneg (attempt : ℤ) : 0 ≤ policy.power attempt :=
  mul_nonneg (Int.cast_nonneg hchecked.initialDelay) (pow_nonneg hchecked.factor_pos.le _)

theorem Checked.power_mono (hfactor : 1 ≤ policy.factor) {later : ℤ} (hlater : attempt ≤ later) :
    policy.power attempt ≤ policy.power later := by
  refine mul_le_mul_of_nonneg_left ?_ (Int.cast_nonneg hchecked.initialDelay)
  exact pow_le_pow_right₀ hfactor (by omega)

theorem Checked.power_le_initial (hfactor : policy.factor ≤ 1) (attempt : ℤ) :
    policy.power attempt ≤ policy.initialDelay :=
  mul_le_of_le_one_right (Int.cast_nonneg hchecked.initialDelay)
    (pow_le_one₀ hchecked.factor_pos.le hfactor)

theorem Checked.grownDelay_eq (hattempt : 1 ≤ attempt) (hrange : policy.power attempt < 2 ^ 63) :
    policy.grownDelay conversion attempt = ⌊policy.power attempt⌋ := by
  have hpower := conversion.truncates _ (hchecked.power_nonneg attempt) hrange
  unfold grownDelay
  simp only [max_eq_left hchecked.initialDelay]
  split_ifs with hgrows
  · exact hpower
  rw [not_and_or, not_lt, not_lt] at hgrows
  rcases hgrows with hfirst | hzero
  · simp [power, hattempt.antisymm hfirst]
  · simp [power, hzero.antisymm hchecked.initialDelay]

theorem Checked.lt_of_last (hattempt : attempt ≤ policy.maxAttempts)
    (hlast : policy.power policy.maxAttempts < 2 ^ 63) : policy.power attempt < 2 ^ 63 := by
  rcases le_total 1 policy.factor with hgrows | hshrinks
  · exact (hchecked.power_mono hgrows hattempt).trans_lt hlast
  · refine (hchecked.power_le_initial hshrinks attempt).trans_lt ?_
    exact_mod_cast policy.initialDelay_lt

end

theorem capped_mono {first second : ℤ} (hle : first ≤ second) :
    policy.capped first ≤ policy.capped second := by
  unfold capped
  split_ifs <;> omega

theorem delayForAttempt_bounds (hgrown : 0 ≤ policy.grownDelay conversion attempt)
    (hcap : 0 < policy.maxDelay) (random : ℚ) :
    policy.delayForAttempt conversion attempt random ∈ Set.Icc 0 policy.maxDelay := by
  have hcapped {delay : ℤ} (hdelay : 0 ≤ delay) :
      policy.capped delay ∈ Set.Icc 0 policy.maxDelay := by
    unfold capped
    split_ifs <;> constructor <;> omega
  unfold delayForAttempt
  dsimp only
  split_ifs with _ hnegative
  · exact hcapped hgrown
  · exact ⟨le_rfl, hcap.le⟩
  · exact hcapped (not_lt.mp hnegative)

theorem delayForAttempt_of_steady (hsteady : policy.grownDelay conversion attempt ≤ 0 ∨
    policy.jitterFraction = 0) (random : ℚ) : policy.delayForAttempt conversion attempt random =
      policy.capped (policy.grownDelay conversion attempt) := by
  refine if_pos (hsteady.imp (fun hgrown ↦ ?_) le_of_eq)
  unfold capped
  split_ifs <;> omega

/-- A conversion that gives the least duration outside the 64-bit range. -/
def least : Conversion where
  convert value := if 0 ≤ value ∧ value < 2 ^ 63 then ⌊value⌋ else -2 ^ 63
  range value := by
    split_ifs with hvalue
    · have hfloor := Int.floor_nonneg.mpr hvalue.1
      exact ⟨by omega, Int.floor_lt.mpr (by exact_mod_cast hvalue.2)⟩
    · norm_num
  truncates value hpos hlt := if_pos ⟨hpos, hlt⟩

/-- A delay past the range of an `int64` becomes the least one. -/
theorem Checked.delay_least (hchecked : policy.Checked)
    (hover : 2 ^ 63 ≤ policy.power policy.maxAttempts) (random : ℚ) :
    0 < policy.initialDelay ∧ 1 ≤ policy.multiplier ∧
      policy.delayForAttempt least policy.maxAttempts random = -2 ^ 63 := by
  have hinitial : (policy.initialDelay : ℚ) < policy.power policy.maxAttempts := by
    refine lt_of_lt_of_le ?_ hover
    exact_mod_cast policy.initialDelay_lt
  have hfactor : 1 < policy.factor := by
    by_contra hshrinks
    exact absurd (hchecked.power_le_initial (not_lt.mp hshrinks) _) (not_le.mpr hinitial)
  have hmultiplier : 1 ≤ policy.multiplier := by
    unfold factor at hfactor
    split_ifs at hfactor
    · exact absurd hfactor (lt_irrefl 1)
    · exact hfactor.le
  have hpos : 0 < policy.initialDelay := by
    refine hchecked.initialDelay.lt_of_ne fun hzero ↦ ?_
    simp [power, ← hzero] at hinitial
  have hattempts : 1 < policy.maxAttempts := by
    refine hchecked.maxAttempts.lt_of_ne fun hone ↦ ?_
    simp [power, ← hone] at hinitial
  have hgrown : policy.grownDelay least policy.maxAttempts = -2 ^ 63 := by
    unfold grownDelay
    simp only [max_eq_left hchecked.initialDelay]
    rw [if_pos ⟨hattempts, hpos⟩]
    exact if_neg fun hrange ↦ absurd hrange.2 (not_lt.mpr hover)
  refine ⟨hpos, hmultiplier, ?_⟩
  rw [delayForAttempt_of_steady (.inl (by rw [hgrown]; norm_num)), hgrown,
    capped, if_neg (by omega)]

theorem Checked.one_le_factor (hchecked : policy.Checked) (hinitial : 0 < policy.initialDelay)
    (hmono : policy.capped (policy.grownDelay least 1) ≤ policy.capped
      (policy.grownDelay least 2)) :
    1 ≤ policy.factor := by
  by_contra hshrinks
  have hlt : policy.power 2 < policy.initialDelay := by
    have hscaled := mul_lt_mul_of_pos_left (not_le.mp hshrinks) (Int.cast_pos.mpr hinitial)
    simpa [power] using hscaled
  have hrange : policy.power 2 < 2 ^ 63 := hlt.trans (by exact_mod_cast policy.initialDelay_lt)
  have hfirst : policy.grownDelay least 1 = policy.initialDelay := by
    simp [grownDelay, hchecked.initialDelay]
  rw [hchecked.grownDelay_eq one_le_two hrange] at hmono
  have hfloor := Int.floor_lt.mpr hlt
  have hcap := hchecked.initialDelay_le
  unfold capped at hmono
  split_ifs at hmono <;> omega

/-- Assumes: the policy is accepted. -/
theorem delays_ordered_iff {written : AdapterRetryPolicy}
    (hpolicy : normalizeAdapterRetryPolicy written = .ok policy) :
    (∀ conversion, policy.DelaysOrdered conversion) ↔ policy.Tame := by
  have hchecked := checked_of_normalize hpolicy
  have hrandom : (0 : ℚ) ∈ Set.Ico (0 : ℚ) 1 := by simp
  constructor
  · intro hordered
    refine ⟨fun hinitial hattempts hjitter ↦ ?_, fun hclaimed ↦ ?_⟩
    · have hmono := (hordered least).monotone 1 ⟨le_rfl, hattempts⟩ 0 hrandom 0 hrandom hjitter
      rw [delayForAttempt_of_steady (.inr hjitter),
        delayForAttempt_of_steady (.inr hjitter)] at hmono
      exact hchecked.one_le_factor hinitial hmono
    by_contra hover
    obtain ⟨hinitial, hmultiplier, _⟩ := hchecked.delay_least (not_lt.mp hover) 0
    have hlast := Set.right_mem_Icc.mpr hchecked.maxAttempts
    rcases hclaimed with hjitter | hcap
    · have hpositive := (hordered least).positive _ hlast 0 hrandom hinitial hjitter hmultiplier
      omega
    · have hbounded := ((hordered least).bounded _ hlast 0 hrandom hcap).1
      omega
  · intro htame conversion
    have hgrown {attempt : ℤ} (hattempt : attempt ∈ Set.Icc 1 policy.maxAttempts)
        (hclaimed : policy.jitterFraction = 0 ∨ 0 < policy.maxDelay) :
        policy.grownDelay conversion attempt = ⌊policy.power attempt⌋ :=
      hchecked.grownDelay_eq hattempt.1 (hchecked.lt_of_last hattempt.2 (htame.inRange hclaimed))
    constructor
    · intro attempt hattempt random _ hcap
      refine delayForAttempt_bounds ?_ hcap random
      rw [hgrown hattempt (.inr hcap)]
      exact Int.floor_nonneg.mpr (hchecked.power_nonneg attempt)
    · intro attempt hattempt random _ _ hjitter hmultiplier
      have hfactor : 1 ≤ policy.factor := by rwa [factor, if_neg (one_pos.trans_le hmultiplier).ne']
      have hfloor : policy.initialDelay ≤ ⌊policy.power attempt⌋ := by
        rw [Int.le_floor]
        simpa [power] using hchecked.power_mono hfactor hattempt.1
      rw [delayForAttempt_of_steady (.inr hjitter), hgrown hattempt (.inl hjitter), capped]
      split_ifs <;> omega
    · intro _ ⟨hattempt, hlater⟩ _ _ _ _ hjitter
      rw [delayForAttempt_of_steady (.inr hjitter), delayForAttempt_of_steady (.inr hjitter)]
      apply capped_mono
      rw [hgrown ⟨hattempt, hlater.le⟩ (.inl hjitter), hgrown ⟨by omega, hlater⟩ (.inl hjitter)]
      apply Int.floor_mono
      rcases hchecked.initialDelay.eq_or_lt with hzero | hpos
      · simp [power, ← hzero]
      · exact hchecked.power_mono (htame.grows hpos (by omega) hjitter) (by omega)

/-- Attempts from one second on, ten times longer each, but not over thirty seconds. -/
def tenfold (attempts : ℤ) : AdapterRetryPolicy where
  name := bytesOf "tenfold"
  maxAttempts := attempts
  initialDelay := 10 ^ 9
  initialDelay_lt := by norm_num
  maxDelay := 30 * 10 ^ 9
  multiplier := 10
  jitterFraction := 0

/-- With twelve attempts the last delay is negative, not thirty seconds. -/
theorem delay_negative : normalizeAdapterRetryPolicy (tenfold 12) = .ok (tenfold 12) ∧
    (tenfold 12).delayForAttempt least 12 0 = -2 ^ 63 := by
  have haccepted : normalizeAdapterRetryPolicy (tenfold 12) = .ok (tenfold 12) := rfl
  refine ⟨haccepted, ((checked_of_normalize haccepted).delay_least ?_ 0).2.2⟩
  simp [power, factor, tenfold]
  norm_num

/-- With ten attempts the delays are in order. -/
theorem delays_ordered_tenfold : (tenfold 10).DelaysOrdered least := by
  have haccepted : normalizeAdapterRetryPolicy (tenfold 10) = .ok (tenfold 10) := rfl
  refine (delays_ordered_iff haccepted).mpr ⟨fun _ _ _ ↦ ?_, fun _ ↦ ?_⟩ least
  · norm_num [factor, tenfold]
  · simp [power, factor, tenfold]
    norm_num

end AdapterRetryPolicy

end Clyde.Retry
