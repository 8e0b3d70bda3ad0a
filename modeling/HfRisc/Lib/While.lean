import Mathlib.Algebra.Order.Ring.Nat
import Mathlib.Data.Nat.Find
import Mathlib.Logic.Function.Iterate
import Mathlib.Order.Basic

/-!
# While loops and loops that return

A loop over the values of its variables, given up after a number of tests, so that it is defined
where it does not end as well. A loop that has an invariant with a bound on the rounds left ends
with that invariant and a false test. A loop that halves or doubles a value until it is on the
other side of a power of two ends with an iterate of its body.

`for (;;)` over the values of its variables. A round goes on with new values, returns, or stops
with an error; the loop is given up after a number of rounds, so that it is defined where it does
not end as well. What a loop returns is read off the values that it goes through.
-/

namespace HfRisc.Lib

variable {σ : Type*}

/-- `while (test) body`, given up after `fuel` tests. -/
def whileLoop (test : σ → Bool) (body : σ → σ) : ℕ → σ → Option σ
  | 0, _ => none
  | fuel + 1, s => if test s then whileLoop test body fuel (body s) else some s

variable {test : σ → Bool} {body : σ → σ} {inv : ℕ → σ → Prop} {k fuel : ℕ} {s : σ}

/-- `inv k` holds where at most `k` rounds are left: the loop ends in it. -/
theorem whileLoop_total
    (hround : ∀ k s, inv k s → test s = true → ∃ j < k, inv j (body s))
    (h : inv k s) (hfuel : k < fuel) :
    ∃ s', whileLoop test body fuel s = some s' ∧ (∃ j, inv j s') ∧ test s' = false := by
  induction fuel generalizing k s with
  | zero => exact absurd hfuel (Nat.not_lt_zero k)
  | succ fuel ih =>
    rw [whileLoop]
    cases htest : test s with
    | false => exact ⟨s, rfl, ⟨k, h⟩, htest⟩
    | true =>
      obtain ⟨j, hj, hbody⟩ := hround k s h htest
      exact ih hbody (Nat.lt_of_lt_of_le hj (Nat.le_of_lt_succ hfuel))

/-- What the body keeps holds where the loop ends. -/
theorem whileLoop_some {p : σ → Prop} {t : σ} (hbody : ∀ s, p s → test s = true → p (body s))
    (hs : p s) (h : whileLoop test body fuel s = some t) : p t ∧ test t = false := by
  induction fuel generalizing s with
  | zero => cases h
  | succ fuel ih =>
    rw [whileLoop] at h
    cases htest : test s with
    | false =>
      rw [htest] at h
      obtain rfl := Option.some.inj h
      exact ⟨hs, htest⟩
    | true =>
      rw [htest] at h
      exact ih (hbody s hs htest) h

/-- A loop whose test stays true does not end. -/
theorem whileLoop_eq_none {p : σ → Prop} (htest : ∀ s, p s → test s = true)
    (hbody : ∀ s, p s → p (body s)) (hs : p s) : whileLoop test body fuel s = none := by
  induction fuel generalizing s with
  | zero => rfl
  | succ fuel ih =>
    rw [whileLoop, if_pos (htest s hs)]
    exact ih (hbody s hs)

/-- The loop ends with the first iterate that fails the test. -/
theorem whileLoop_iterate (hrun : ∀ j < k, test (body^[j] s) = true)
    (hexit : test (body^[k] s) = false) (hfuel : k < fuel) :
    whileLoop test body fuel s = some (body^[k] s) := by
  induction fuel generalizing k s with
  | zero => exact absurd hfuel (Nat.not_lt_zero k)
  | succ fuel ih =>
    rw [whileLoop]
    cases k with
    | zero => exact if_neg (Bool.eq_false_iff.mp hexit)
    | succ k =>
      have hfirst : test s = true := hrun 0 (Nat.succ_pos k)
      rw [if_pos hfirst]
      exact ih (fun j hj => hrun (j + 1) (Nat.succ_lt_succ hj)) hexit (Nat.lt_of_succ_lt_succ hfuel)

/-! ## Values that are halved -/

section Halve

variable {v : σ → ℕ} {p : σ → Prop} {n t : ℕ}

/-- A loop that halves a value until it is less than `2 ^ (t + 1)`. -/
theorem whileLoop_halve (htest : ∀ s, p s → (test s = true ↔ 2 ^ (t + 1) ≤ v s))
    (hbody : ∀ s, p s → p (body s) ∧ v (body s) = v s / 2) (hs : p s) (hv : v s < 2 ^ n)
    (hfuel : n < fuel) :
    ∃ k, whileLoop test body fuel s = some (body^[k] s) ∧ p (body^[k] s) ∧
      v (body^[k] s) = v s / 2 ^ k ∧ v (body^[k] s) < 2 ^ (t + 1) ∧
      (k = 0 ∨ 2 ^ t ≤ v (body^[k] s)) := by
  have hiter : ∀ k, p (body^[k] s) ∧ v (body^[k] s) = v s / 2 ^ k := by
    intro k
    induction k with
    | zero => exact ⟨hs, by rw [Nat.pow_zero, Nat.div_one]; rfl⟩
    | succ k ih =>
      obtain ⟨hnext, hhalf⟩ := hbody _ ih.1
      rw [Function.iterate_succ_apply']
      exact ⟨hnext, by rw [hhalf, ih.2, Nat.div_div_eq_div_mul, Nat.pow_succ]⟩
  have hsmall : v s / 2 ^ n < 2 ^ (t + 1) := by
    rw [Nat.div_eq_of_lt hv]
    exact Nat.two_pow_pos _
  obtain ⟨k, hk, hleast⟩ : ∃ k, v s / 2 ^ k < 2 ^ (t + 1) ∧
      ∀ j < k, 2 ^ (t + 1) ≤ v s / 2 ^ j := by
    classical
    have hreached : ∃ k, v s / 2 ^ k < 2 ^ (t + 1) := ⟨n, hsmall⟩
    exact ⟨Nat.find hreached, Nat.find_spec hreached,
      fun j hj => Nat.le_of_not_lt (Nat.find_min hreached hj)⟩
  have hkn : k ≤ n := by
    by_contra hgt
    exact absurd (hleast n (Nat.lt_of_not_le hgt)) (Nat.not_le_of_lt hsmall)
  obtain ⟨hp, hvalue⟩ := hiter k
  refine ⟨k, whileLoop_iterate (fun j hj => ?_) ?_ (hkn.trans_lt hfuel), hp, hvalue,
    hvalue ▸ hk, ?_⟩
  · rw [htest _ (hiter j).1, (hiter j).2]
    exact hleast j hj
  · rw [← Bool.not_eq_true, htest _ hp, hvalue]
    exact Nat.not_le_of_lt hk
  · cases k with
    | zero => exact .inl rfl
    | succ k =>
      right
      have hlast := hleast k (Nat.lt_succ_self k)
      rw [hvalue, Nat.pow_succ, ← Nat.div_div_eq_div_mul]
      rw [Nat.pow_succ] at hlast
      omega

end Halve

/-! ## Values that are doubled -/

section Scale

variable {v : σ → ℕ} {p : σ → Prop} {c t : ℕ}

/-- The value while the test has been true. -/
theorem iterate_scale
    (hbody : ∀ s, p s → v s < 2 ^ t → p (body s) ∧ v (body s) = v s * 2 ^ c)
    (hs : p s) (hrun : ∀ j < k, v (body^[j] s) < 2 ^ t) :
    p (body^[k] s) ∧ v (body^[k] s) = v s * 2 ^ (c * k) := by
  induction k with
  | zero => exact ⟨hs, by rw [Nat.mul_zero, Nat.pow_zero, Nat.mul_one]; rfl⟩
  | succ k ih =>
    obtain ⟨hk, hvalue⟩ := ih fun j hj => hrun j (Nat.lt_succ_of_lt hj)
    obtain ⟨hnext, hscaled⟩ := hbody _ hk (hrun k (Nat.lt_succ_self k))
    rw [Function.iterate_succ_apply']
    refine ⟨hnext, ?_⟩
    rw [hscaled, hvalue, Nat.mul_succ, Nat.pow_add, Nat.mul_assoc]

/-- A loop that multiplies a value by `2 ^ c` until it has reached `2 ^ t`. -/
theorem whileLoop_scale (hc : 0 < c) (htest : ∀ s, p s → (test s = true ↔ v s < 2 ^ t))
    (hbody : ∀ s, p s → v s < 2 ^ t → p (body s) ∧ v (body s) = v s * 2 ^ c)
    (hs : p s) (hpos : 0 < v s) (hfuel : t < fuel) :
    ∃ k, whileLoop test body fuel s = some (body^[k] s) ∧ p (body^[k] s) ∧
      v (body^[k] s) = v s * 2 ^ (c * k) ∧ 2 ^ t ≤ v (body^[k] s) ∧
      (k = 0 ∨ v (body^[k] s) < 2 ^ (t + c)) := by
  have hreached : ∃ k, 2 ^ t ≤ v s * 2 ^ (c * k) := by
    refine ⟨t, (Nat.pow_le_pow_right (by decide) (Nat.le_mul_of_pos_left t hc)).trans ?_⟩
    exact Nat.le_mul_of_pos_left _ hpos
  obtain ⟨k, hk, hleast⟩ : ∃ k, 2 ^ t ≤ v s * 2 ^ (c * k) ∧ ∀ j < k, v s * 2 ^ (c * j) < 2 ^ t := by
    classical
    exact ⟨Nat.find hreached, Nat.find_spec hreached,
      fun j hj => Nat.lt_of_not_le (Nat.find_min hreached hj)⟩
  -- below the first reached place the iterates are the products
  have hbelow : ∀ j ≤ k, p (body^[j] s) ∧ v (body^[j] s) = v s * 2 ^ (c * j) := by
    intro j
    induction j using Nat.strong_induction_on with
    | _ j ih =>
      intro hj
      refine iterate_scale hbody hs fun i hi => ?_
      rw [(ih i hi (hi.le.trans hj)).2]
      exact hleast i (hi.trans_le hj)
  obtain ⟨hp, hvalue⟩ := hbelow k le_rfl
  have hkt : k ≤ t := by
    by_contra hgt
    have hlt := hleast t (Nat.lt_of_not_le hgt)
    have hle : 2 ^ t ≤ v s * 2 ^ (c * t) :=
      (Nat.pow_le_pow_right (by decide) (Nat.le_mul_of_pos_left t hc)).trans
        (Nat.le_mul_of_pos_left _ hpos)
    exact absurd hle (Nat.not_le_of_lt hlt)
  refine ⟨k, whileLoop_iterate (fun j hj => ?_) ?_ (hkt.trans_lt hfuel), hp, hvalue,
    hvalue ▸ hk, ?_⟩
  · obtain ⟨hj', hvj⟩ := hbelow j hj.le
    rw [htest _ hj', hvj]
    exact hleast j hj
  · rw [← Bool.not_eq_true, htest _ hp, hvalue]
    exact Nat.not_lt_of_le hk
  · cases k with
    | zero => exact .inl rfl
    | succ k =>
      right
      have hlast := hleast k (Nat.lt_succ_self k)
      rw [hvalue, Nat.mul_succ, Nat.pow_add, ← Nat.mul_assoc, Nat.pow_add]
      exact Nat.mul_lt_mul_of_pos_right hlast (Nat.two_pow_pos c)

end Scale

end HfRisc.Lib

/-! ## Loops that return -/

namespace HfRisc.Lib

variable {σ β ε : Type*}

/-- What a round ends with. -/
inductive Round (σ β : Type*)
  /-- the next round, with new values of the variables -/
  | next (s : σ)
  /-- a return, or what is behind the loop -/
  | done (b : β)

/-- `for (;;) body`, given up with `exhausted` after `fuel` rounds. -/
def loop (body : σ → Except ε (Round σ β)) (exhausted : ε) : ℕ → σ → Except ε β
  | 0, _ => .error exhausted
  | fuel + 1, s =>
    match body s with
    | .ok (.next s) => loop body exhausted fuel s
    | .ok (.done b) => .ok b
    | .error e => .error e

variable {body : σ → Except ε (Round σ β)} {exhausted : ε} {fuel n : ℕ} {s s' : σ} {b : β}

theorem loop_of_next (h : body s = .ok (.next s')) :
    loop body exhausted (fuel + 1) s = loop body exhausted fuel s' := by
  rw [loop, h]

theorem loop_of_done (h : body s = .ok (.done b)) :
    loop body exhausted (fuel + 1) s = .ok b := by
  rw [loop, h]

/-- The loop goes through the values `f 0`, `f 1` and so on, and returns from `f n`. -/
theorem loop_path {f : ℕ → σ} (hnext : ∀ i < n, body (f i) = .ok (.next (f (i + 1))))
    (hdone : body (f n) = .ok (.done b)) (hfuel : n < fuel) :
    loop body exhausted fuel (f 0) = .ok b := by
  induction n generalizing f fuel with
  | zero =>
    obtain ⟨fuel, rfl⟩ := Nat.exists_eq_succ_of_ne_zero (Nat.ne_zero_of_lt hfuel)
    exact loop_of_done hdone
  | succ n ih =>
    obtain ⟨fuel, rfl⟩ := Nat.exists_eq_succ_of_ne_zero (Nat.ne_zero_of_lt hfuel)
    rw [loop_of_next (hnext 0 (Nat.succ_pos n))]
    exact ih (f := fun i => f (i + 1)) (fun i hi => hnext (i + 1) (Nat.succ_lt_succ hi)) hdone
      (Nat.lt_of_succ_lt_succ hfuel)

end HfRisc.Lib
