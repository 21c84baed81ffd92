import FloatWord.Carrier
import FloatWord.Proofs.FieldViews

/-!
# Proofs — Carrying — what a word becomes on its way through several types

A word that is loaded as fields and stored again is the word (`toWord_ofWord`), and as a double it
comes back as it was or, if it is NaN, as `canonicalNaN` (`encode_decode_eq_ite`).  That is one hop
(`Carrier.hop_eq_ite`).  `canonicalNaN` stays what it is, so by induction on the route all hops
through doubles after the first change nothing (`Carrier.hops_eq_ite`).

What a value is stored as has been through its type once already: loading it and storing it again
gives the same word in each of the three types, and so it is with a list of values
(`map_toWord_ofWord`).
-/

namespace FloatWord

namespace Carrier

/-- One hop changes the words of NaN only, and only through a double. -/
theorem hop_eq_ite (c : Carrier) (w : Word) :
    c.hop w = if c = .float ∧ IsNaNWord w then canonicalNaN else w := by
  cases c with
  | word => exact (if_neg (fun h => nomatch h.1)).symm
  | float =>
      rw [if_congr (and_iff_right rfl) rfl rfl]
      exact encode_decode_eq_ite w
  | fields =>
      rw [if_neg (fun h => nomatch h.1)]
      exact toWord_ofWord w

theorem hops_cons (c : Carrier) (route : List Carrier) (w : Word) :
    hops (c :: route) w = hops route (c.hop w) := rfl

/-- A route changes the words of NaN only, and only if it passes through a double. -/
theorem hops_eq_ite (route : List Carrier) (w : Word) :
    hops route w = if .float ∈ route ∧ IsNaNWord w then canonicalNaN else w := by
  induction route generalizing w with
  | nil => exact (if_neg (fun h => List.not_mem_nil h.1)).symm
  | cons c route ih =>
      have hhop := hop_eq_ite c w
      by_cases hw : IsNaNWord w
      · by_cases hc : c = .float
        · -- from here on the word is `canonicalNaN`
          have hmem : .float ∈ c :: route := hc ▸ List.mem_cons_self
          rw [if_pos ⟨hc, hw⟩] at hhop
          rw [hops_cons, hhop, ih, ite_self, if_pos ⟨hmem, hw⟩]
        · have hmem : .float ∈ route ↔ .float ∈ c :: route :=
            (List.mem_cons.trans (or_iff_right (Ne.symm hc))).symm
          rw [if_neg (fun h => hc h.1)] at hhop
          rw [hops_cons, hhop, ih]
          exact if_congr (and_congr_left' hmem) rfl rfl
      · rw [if_neg (fun h => hw h.2)] at hhop
        rw [hops_cons, hhop, ih, if_neg (fun h => hw h.2), if_neg (fun h => hw h.2)]

end Carrier

section Storage
open WordCarried
variable {α : Type} [WordCarried α]

/-- A list that is stored, loaded and stored again is the list that was stored first, if this is so
for each of its values. -/
theorem map_toWord_ofWord (h : ∀ a : α, toWord (ofWord (toWord a) : α) = toWord a)
    (values : List α) :
    ((values.map toWord).map ofWord : List α).map toWord = values.map toWord := by
  rw [List.map_map, List.map_map]
  exact List.map_congr_left fun a _ => h a

/-- **Storage settles at once.**  Through any route of types a word ends as it was, unless it is
NaN and the route passes through a double: then it ends as `canonicalNaN`.  And whatever values are
stored, words, doubles or fields, the words that they load and store again are the words that were
stored first. -/
theorem carrying_settles :
    (∀ (route : List Carrier) (w : Word),
      Carrier.hops route w = if .float ∈ route ∧ IsNaNWord w then canonicalNaN else w) ∧
    (∀ values : List Word,
      ((values.map toWord).map ofWord : List Word).map toWord = values.map toWord) ∧
    (∀ values : List Float,
      ((values.map toWord).map ofWord : List Float).map toWord = values.map toWord) ∧
    ∀ values : List Fields,
      ((values.map toWord).map ofWord : List Fields).map toWord = values.map toWord := by
  refine ⟨Carrier.hops_eq_ite, ?word, ?float, ?fields⟩
  case word => exact map_toWord_ofWord fun _ => rfl
  case float => exact map_toWord_ofWord encode_decode_encode
  case fields => exact map_toWord_ofWord fun f => toWord_ofWord f.toWord

end Storage

end FloatWord
