import FloatWord.Proofs.RoundTrip

/-!
# Proofs — Exactness — the codec rounds nothing

A run with `recordedTimes` lists the products that it asks for.  To see that each of them is a
double, the run is compared with one that gives up at the first that is not: a map between monads
that keeps `pure`, `bind` and the integer steps takes the one run to the other, whatever the
function computes (`MonadHom.app_encodeVia`, `MonadHom.app_decodeVia`), and the second run is known
not to give up.

* `encodeVia_recorded`, `decodeVia_recorded`: every product on record is a double.
* `guard_of_class`: the last product of an encoding is an integer, so `roundTiesEven` returns it
  without an addition.
* `codec_never_rounds`: all of this, and what follows for other multiplications (`FindsExact`).
-/

namespace FloatWord

/-! ### One run in two monads -/

/-- A map from one monad to another that keeps `pure`, `bind` and the integer steps. -/
structure MonadHom (M N : Type → Type) [Monad M] [Monad N] [IntegerSteps M] [IntegerSteps N] where
  app : ∀ {α : Type}, M α → N α
  app_pure : ∀ {α : Type} (a : α), app (pure a) = pure a
  app_bind : ∀ {α β : Type} (m : M α) (f : α → M β), app (m >>= f) = app m >>= fun a => app (f a)
  app_add : ∀ a b, app (IntegerSteps.add a b) = IntegerSteps.add a b
  app_sub : ∀ a b, app (IntegerSteps.sub a b) = IntegerSteps.sub a b
  app_shift : ∀ m k, app (IntegerSteps.shift m k) = IntegerSteps.shift m k
  app_cast : ∀ k, app (IntegerSteps.cast k) = IntegerSteps.cast k

namespace MonadHom
variable {M N : Type → Type} [Monad M] [Monad N] [IntegerSteps M] [IntegerSteps N]
variable (φ : MonadHom M N) (mul : Float → Float → M Float)

attribute [simp] app_pure app_bind app_add app_sub app_shift app_cast

/-- The multiplication that a multiplication becomes in the other monad. -/
def times (a b : Float) : N Float := φ.app (mul a b)

@[simp] theorem app_foldlM {σ α : Type} (f : σ → α → M σ) (l : List α) (a : σ) :
    φ.app (l.foldlM f a) = l.foldlM (fun b c => φ.app (f b c)) a := by
  induction l generalizing a with
  | nil => exact φ.app_pure a
  | cons c l ih => simp only [List.foldlM_cons, app_bind, ih]

@[simp] theorem app_takeVia (upward : Bool) (d : Decomposition) (t : Step) :
    φ.app (d.takeVia mul upward t) = d.takeVia (φ.times mul) upward t := by
  unfold Decomposition.takeVia
  split <;> simp [times]

@[simp] theorem app_exp2Via (n : Int32) : φ.app (exp2Via mul n) = exp2Via (φ.times mul) n := by
  simp [exp2Via, decomposeVia]

@[simp] theorem app_ofExponentVia (n : Int32) :
    φ.app (Staging.ofExponentVia n) = Staging.ofExponentVia n := by
  simp [Staging.ofExponentVia, apply_ite φ.app]

@[simp] theorem app_scaleVia (x : Float) (n : Int32) :
    φ.app (scaleVia mul x n) = scaleVia (φ.times mul) x n := by
  simp only [scaleVia, app_bind, app_foldlM, app_ofExponentVia, app_exp2Via]
  rfl

@[simp] theorem app_lowerVia (s : Split) (t : Step) :
    φ.app (s.lowerVia mul t) = s.lowerVia (φ.times mul) t := by
  unfold Split.lowerVia
  split <;> simp [times]

@[simp] theorem app_raiseVia (s : Split) (t : Step) :
    φ.app (s.raiseVia mul t) = s.raiseVia (φ.times mul) t := by
  unfold Split.raiseVia
  split <;> simp [times]

@[simp] theorem app_liftVia (x : Float) :
    φ.app (Split.liftVia mul x) = Split.liftVia (φ.times mul) x := by
  unfold Split.liftVia
  split <;> simp [times]

@[simp] theorem app_normalizeVia (s : Split) :
    φ.app (Split.normalizeVia mul s) = Split.normalizeVia (φ.times mul) s := by
  unfold Split.normalizeVia
  split <;> simp [times]

@[simp] theorem app_ofFloatVia (x : Float) :
    φ.app (Split.ofFloatVia mul x) = Split.ofFloatVia (φ.times mul) x := by
  unfold Split.ofFloatVia
  split <;> simp

@[simp] theorem app_carryVia (t : Significand) : φ.app t.carryVia = t.carryVia := by
  unfold Significand.carryVia
  split <;> simp

@[simp] theorem app_toWordVia (t : Significand) : φ.app t.toWordVia = t.toWordVia := by
  simp [Significand.toWordVia, apply_ite φ.app]

@[simp] theorem app_packVia (sign : Word) (s : Split) :
    φ.app (s.packVia mul sign) = s.packVia (φ.times mul) sign := by
  simp [Split.packVia, Split.significandVia, times]

/-- Encoding in one monad and changing over is encoding in the other. -/
theorem app_encodeVia (x : Float) : φ.app (encodeVia mul x) = encodeVia (φ.times mul) x := by
  unfold encodeVia
  cases FloatClass.ofFloat x <;> simp

@[simp] theorem app_exponentVia? (f : Fields) : φ.app f.exponentVia? = f.exponentVia? := by
  unfold Fields.exponentVia? Fields.unbiasVia
  cases f.floatClass <;> simp

/-- Decoding in one monad and changing over is decoding in the other. -/
theorem app_decodeVia (w : Word) : φ.app (decodeVia mul w) = decodeVia (φ.times mul) w := by
  simp only [decodeVia, apply_ite φ.app, app_pure]
  split
  · rfl
  split
  · rfl
  simp only [app_bind, app_exponentVia?]
  congr 1
  funext exponent?
  split <;> simp

end MonadHom

/-! ### The products on record -/

namespace Recorded

/-- The value alone. -/
def toValue : MonadHom Recorded Id where
  app r := r.value
  app_pure _ := rfl
  app_bind _ _ := rfl
  app_add _ _ := rfl
  app_sub _ _ := rfl
  app_shift _ _ := rfl
  app_cast _ := rfl

open Classical in
/-- The value, unless a product on record is not exact. -/
noncomputable def toChecked : MonadHom Recorded Option where
  app r := if ∀ p ∈ r.products, ExactProduct p.1 p.2 then some r.value else none
  app_pure a := if_pos (List.forall_mem_nil _)
  app_bind r f := by
    by_cases h : ∀ p ∈ r.products, ExactProduct p.1 p.2
    · rw [if_pos h]
      exact if_congr (List.forall_mem_append.trans (and_iff_right h)) rfl rfl
    · rw [if_neg h, if_neg fun h' => h fun p hp => h' p (List.mem_append_left _ hp)]
      rfl
  app_add _ _ := if_pos (List.forall_mem_nil _)
  app_sub _ _ := if_pos (List.forall_mem_nil _)
  app_shift _ _ := if_pos (List.forall_mem_nil _)
  app_cast _ := if_pos (List.forall_mem_nil _)

theorem toValue_times : toValue.times recordedTimes = FloatWord.times := rfl

theorem toChecked_times : toChecked.times recordedTimes = checkedTimes := by
  funext a b
  have hall : (∀ p ∈ (recordedTimes a b).products, ExactProduct p.1 p.2) ↔ ExactProduct a b :=
    List.forall_mem_singleton
  by_cases h : ExactProduct a b
  · exact (if_pos (hall.mpr h)).trans (if_pos h).symm
  · exact (if_neg (mt hall.mp h)).trans (if_neg h).symm

variable {α : Type} {r : Recorded α} {a : α}

theorem eq_of_toChecked (h : toChecked.app r = some a) :
    r.value = a ∧ ∀ p ∈ r.products, ExactProduct p.1 p.2 := by
  by_cases hexact : ∀ p ∈ r.products, ExactProduct p.1 p.2
  · exact ⟨Option.some.inj ((if_pos hexact).symm.trans h), hexact⟩
  · exact absurd ((if_neg hexact).symm.trans h) nofun

end Recorded

/-! ### The runs of the codec -/

variable {x : Float} {w : Word}

theorem encodeVia_recorded (x : Float) :
    (encodeVia recordedTimes x).value = encode x ∧
      ∀ p ∈ (encodeVia recordedTimes x).products, ExactProduct p.1 p.2 := by
  refine Recorded.eq_of_toChecked ?_
  rw [MonadHom.app_encodeVia, Recorded.toChecked_times]
  exact encodeVia_eq_encode mulExact_checkedTimes x

theorem decodeVia_recorded (w : Word) :
    (decodeVia recordedTimes w).value = decode w ∧
      ∀ p ∈ (decodeVia recordedTimes w).products, ExactProduct p.1 p.2 := by
  refine Recorded.eq_of_toChecked ?_
  rw [MonadHom.app_decodeVia, Recorded.toChecked_times]
  exact decodeVia_eq mulExact_checkedTimes w

/-! Integer steps put nothing on record. -/

theorem products_carryVia (t : Significand) :
    (t.carryVia : Recorded Significand).products = [] := by
  unfold Significand.carryVia
  split <;> rfl

theorem products_toWordVia (t : Significand) : (t.toWordVia : Recorded Word).products = [] := by
  unfold Significand.toWordVia
  split
  · split <;> rfl
  · split <;> rfl

theorem products_packVia (sign : Word) (s : Split) :
    (s.packVia recordedTimes sign).products = [(s.fraction, Split.two53)] := by
  show (_, _) :: (Recorded.products _ ++ (Recorded.products _ ++ [])) = _
  rw [products_carryVia, products_toWordVia]
  rfl

/-- The number that `encode` rounds to an integer is the last product of the run. -/
theorem getLast?_products_encodeVia
    (h : FloatClass.ofFloat x = .subnormal ∨ FloatClass.ofFloat x = .normal) :
    (encodeVia recordedTimes x).products.getLast? =
      some ((Split.ofFloat (if copySign 1 x == -1 then -x else x)).fraction, Split.two53) := by
  have hvalue : ∀ y, (Split.ofFloatVia recordedTimes y).value = Split.ofFloat y := fun y => by
    have hrun := Recorded.toValue.app_ofFloatVia recordedTimes y
    rwa [Recorded.toValue_times] at hrun
  have hrun : ∀ (r : Recorded Split) sign,
      (r >>= fun s => s.packVia recordedTimes sign).products.getLast? =
        some (r.value.fraction, Split.two53) := fun r sign => by
    show (r.products ++ (Split.packVia recordedTimes sign r.value).products).getLast? = _
    rw [products_packVia, List.getLast?_concat]
  rw [← hvalue]
  rcases h with h | h <;> rw [encodeVia, h] <;> exact hrun _ _

/-- It is an integer already, past the guard of the rounding. -/
theorem guard_of_class
    (h : FloatClass.ofFloat x = .subnormal ∨ FloatClass.ofFloat x = .normal) :
    let y := (Split.ofFloat (if copySign 1 x == -1 then -x else x)).fraction * Split.two53
    (y == 0 || !(magnitude y < two52)) = true := by
  obtain ⟨p, hx, hp⟩ := exists_rational?_of_class h
  have hpos : 0 < |p| := abs_pos.mpr hp
  obtain ⟨f, hst, hf, hf'⟩ := Split.exists_stands_ofFloat (rational?_magnitude hx) hpos.ne'
  rw [abs_of_pos (hst.pos hpos)] at hf hf'
  obtain ⟨hrep, hlow, -⟩ := hst.scaled_bounds hf hf'
  rw [ite_copySign_one_beq]
  exact roundTiesEven_guard (rational?_mul hst.fraction Split.rational?_two53 hrep)
    (hlow.trans (le_abs_self _))

/-! ### Other multiplications -/

/-- A multiplication that finds the exact product wherever this is a double. -/
def FindsExact (mul : Float → Float → Float) : Prop :=
  ∀ a b p q, rational? a = some p → rational? b = some q → Representable (p * q) →
    rational? (mul a b) = some (p * q)

theorem FindsExact.mulExact {M : Type → Type} [Monad M] {mul : Float → Float → Float}
    (h : FindsExact mul) : MulExact fun a b => (pure (mul a b) : M Float) := by
  rintro a b ⟨p, q, ha, hb, hpq⟩ ha₀ hb₀
  have hp : p ≠ 0 := fun e => ha₀ (by rw [ha, e])
  have hq : q ≠ 0 := fun e => hb₀ (by rw [hb, e])
  have hmul := h a b p q ha hb hpq
  have hmachine := rational?_mul ha hb hpq
  exact congrArg pure (eq_of_rational?_of_ne_zero hmul hmachine (mul_ne_zero hp hq))

open Classical in
/-- The multiplication that gives NaN where the product is not a double. -/
noncomputable def refusingTimes (a b : Float) : Float :=
  if ExactProduct a b then a * b else notANumber

theorem findsExact_refusingTimes : FindsExact refusingTimes := by
  intro a b p q ha hb hpq
  rw [refusingTimes, if_pos ⟨p, q, ha, hb, hpq⟩]
  exact rational?_mul ha hb hpq

/-- **The codec never rounds.**  Every product of an encoding and of a decoding is a double, so is
every significand that is converted, and the rounding to an integer on the way to a word stops at
its guard.  So any multiplication that finds the products that are doubles gives the same codec. -/
theorem codec_never_rounds :
    (∀ x, (encodeVia recordedTimes x).value = encode x ∧
      ∀ p ∈ (encodeVia recordedTimes x).products, ExactProduct p.1 p.2) ∧
    (∀ w, (decodeVia recordedTimes w).value = decode w ∧
      ∀ p ∈ (decodeVia recordedTimes w).products, ExactProduct p.1 p.2) ∧
    (∀ w m, (Fields.ofWord w).significand? = some m → rational? m.toFloat = some (m.toNat : ℚ)) ∧
    (∀ x, FloatClass.ofFloat x = .subnormal ∨ FloatClass.ofFloat x = .normal →
      let fraction := (Split.ofFloat (if copySign 1 x == -1 then -x else x)).fraction
      let y := fraction * Split.two53
      (encodeVia recordedTimes x).products.getLast? = some (fraction, Split.two53) ∧
      (y == 0 || !(magnitude y < two52)) = true) ∧
    ∀ mul, FindsExact mul →
      (∀ x, Id.run (encodeVia (fun a b => pure (mul a b)) x) = encode x) ∧
      ∀ w, Id.run (decodeVia (fun a b => pure (mul a b)) w) = decode w := by
  refine ⟨encodeVia_recorded, decodeVia_recorded, fun w m h => ?_, fun x h => ?_,
    fun mul h => ⟨fun x => ?_, fun w => ?_⟩⟩
  · exact rational?_toFloat (significand?_lt h).le
  · exact ⟨getLast?_products_encodeVia h, guard_of_class h⟩
  · exact congrArg Id.run (encodeVia_eq_encode h.mulExact x)
  · exact congrArg Id.run (decodeVia_eq h.mulExact w)

theorem codec_never_rounds_edges :
    ExactProduct (0x10000000000000 : UInt64).toFloat 1 ∧
      rational? (0x10000000000000 : UInt64).toFloat = some ((0x10000000000000 : UInt64).toNat : ℚ) ∧
      ExactProduct (Split.ofFloat 1).fraction Split.two53 ∧
      Id.run (encodeVia (fun a b => pure (refusingTimes a b)) (-0.1)) = encode (-0.1) ∧
      Id.run (decodeVia (fun a b => pure (refusingTimes a b)) 1) = decode 1 := by
  obtain ⟨hencode, hdecode, hcast, hguard, hother⟩ := codec_never_rounds
  have hclass : FloatClass.ofFloat 1 = .normal := by
    rw [ofFloat_of_rational? rational?_one, if_neg one_ne_zero, if_neg]
    rw [abs_one, not_lt]
    exact zpow_le_one_of_nonpos₀ one_le_two (by decide)
  have hproducts : (decodeVia recordedTimes 0x4330000000000000).products =
      [((0x10000000000000 : UInt64).toFloat, 1)] := rfl
  have hmagnitude : (if copySign 1 1 == -1 then -1 else (1 : Float)) = 1 := by decide
  obtain ⟨hlast, -⟩ := hguard 1 (.inr hclass)
  rw [hmagnitude] at hlast
  obtain ⟨hin, hout⟩ := hother refusingTimes findsExact_refusingTimes
  obtain ⟨-, hexact⟩ := hdecode 0x4330000000000000
  rw [hproducts] at hexact
  have hfraction := (hencode 1).2 _ (List.mem_of_getLast? hlast)
  dsimp only at hfraction
  exact ⟨hexact _ (List.mem_singleton_self _), hcast 0x4330000000000000 _ (by decide), hfraction,
    hin (-0.1), hout 1⟩

end FloatWord
