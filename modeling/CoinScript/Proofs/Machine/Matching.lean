import CoinScript.Proofs.Machine.Evaluation
import Mathlib.Data.List.NodupEquivFin

/-!
# Matching signatures to keys

`Run.matchKeys` tries each signature against the remaining keys until one fits, and gives up as soon
as there are fewer keys than signatures left.  The keys it passes over are lost for the later
signatures, so it is not plain that it finds an assignment whenever there is one.

`Assignable fits sigs keys` says that there is one: every signature has a key that fits it, and the
keys stand in the same strict order as the signatures.  `assignable_cons_cons` is the exchange: if
the first signature fits the first key, an assignment that uses another key for it can as well use
this one.

A check of a pair may stop the run instead of deciding, so `Run.Decides refused x p` allows for
that: started anywhere, `x` changes nothing but the journal and returns the truth value of `p`, or
stops with a fault that is among the `refused`.
-/

namespace CoinScript

section

variable {α β : Type}

/-- The elements of the first list can be assigned to elements of the second that fit them, in
strictly the same order. -/
def Assignable (fits : α → β → Prop) (xs : List α) (ys : List β) : Prop :=
  ∃ place : Fin xs.length → Fin ys.length,
    StrictMono place ∧ ∀ i, fits (xs.get i) (ys.get (place i))

variable {fits : α → β → Prop}

/-- Assignments as an inductive relation that skips keys one by one. -/
theorem assignable_iff_sublistForall₂ {xs : List α} {ys : List β} :
    Assignable fits xs ys ↔ List.SublistForall₂ fits xs ys := by
  rw [List.sublistForall₂_iff]
  constructor
  · rintro ⟨place, hmono, hfits⟩
    refine ⟨List.ofFn fun i => ys.get (place i), ?_, ?_⟩
    · rw [List.forall₂_iff_get]
      refine ⟨(List.length_ofFn).symm, fun i hi hi' => ?_⟩
      simpa using hfits ⟨i, hi⟩
    · rw [List.sublist_iff_exists_fin_orderEmbedding_get_eq]
      have hlength : (List.ofFn fun i => ys.get (place i)).length = xs.length :=
        List.length_ofFn
      refine ⟨OrderEmbedding.ofStrictMono (fun i => place (i.cast hlength)) ?_, fun i => ?_⟩
      · intro i j hij
        exact hmono hij
      · rw [List.get_eq_getElem, List.getElem_ofFn]
        rfl
  · rintro ⟨zs, hforall, hsublist⟩
    obtain ⟨hlength, hfits⟩ := List.forall₂_iff_get.mp hforall
    obtain ⟨f, hf⟩ := List.sublist_iff_exists_fin_orderEmbedding_get_eq.mp hsublist
    refine ⟨fun i => f (i.cast hlength), ?_, fun i => ?_⟩
    · intro i j hij
      exact f.strictMono hij
    · rw [← hf]
      exact hfits i.1 i.2 (hlength ▸ i.2)

theorem assignable_nil (ys : List β) : Assignable fits [] ys :=
  assignable_iff_sublistForall₂.mpr .nil

/-- As many keys are needed as there are signatures. -/
theorem Assignable.length_le {xs : List α} {ys : List β} (h : Assignable fits xs ys) :
    xs.length ≤ ys.length := by
  obtain ⟨zs, hforall, hsublist⟩ :=
    List.sublistForall₂_iff.mp (assignable_iff_sublistForall₂.mp h)
  exact hforall.length_eq.trans_le hsublist.length_le

/-- A first key that does not fit is of no use. -/
theorem assignable_skip {x : α} {y : β} {xs : List α} {ys : List β} (h : ¬fits x y) :
    Assignable fits (x :: xs) (y :: ys) ↔ Assignable fits (x :: xs) ys := by
  simp only [assignable_iff_sublistForall₂]
  constructor
  · intro hassigned
    cases hassigned with
    | cons hfits _ => exact absurd hfits h
    | cons_right hrest => exact hrest
  · exact .cons_right

/-- **The exchange.**  If the first signature fits the first key it may be assigned to it. -/
theorem assignable_cons_cons {x : α} {y : β} {xs : List α} {ys : List β} (h : fits x y) :
    Assignable fits (x :: xs) (y :: ys) ↔ Assignable fits xs ys := by
  simp only [assignable_iff_sublistForall₂]
  constructor
  · intro hassigned
    cases hassigned with
    | cons _ hrest => exact hrest
    | cons_right hrest =>
      -- the first signature is assigned further on, and the others after it
      obtain ⟨zs, hforall, hsublist⟩ := List.sublistForall₂_iff.mp hrest
      cases hforall with
      | cons _ htail =>
        exact List.sublistForall₂_iff.mpr ⟨_, htail, (List.sublist_cons_self _ _).trans hsublist⟩
  · exact .cons h

end

namespace Run

variable {refused : Fault → Prop}

/-- From every machine `x` returns the truth value of `p` and changes nothing but the journal, or
stops with one of the given faults. -/
def Decides (refused : Fault → Prop) (x : Run Bool) (p : Prop) : Prop :=
  ∀ m, (∃ v journal, x m = .ok v { m with journal } ∧ (v = true ↔ p)) ∨
    ∃ fault after, x m = .error fault after ∧ refused fault

theorem decides_pure {v : Bool} {p : Prop} (h : v = true ↔ p) : Decides refused (pure v) p :=
  fun m => .inl ⟨v, m.journal, rfl, h⟩

/-- What comes after a decision is compared with what was decided. -/
theorem Decides.bind {x : Run Bool} {f : Bool → Run Bool} {p q : Prop}
    (hx : Decides refused x p) (hf : ∀ v : Bool, (v = true ↔ p) → Decides refused (f v) q) :
    Decides refused (x >>= f) q := by
  intro m
  rcases hx m with ⟨v, journal, hok, hv⟩ | ⟨fault, after, herror, hrefused⟩
  · rw [bind_of_ok hok]
    exact hf v hv { m with journal }
  · exact .inr ⟨fault, after, bind_of_error herror, hrefused⟩

/-- **Taking the first key that fits never misses an assignment.** -/
theorem decides_matchKeys {check : (sig key : Bytes) → Run Bool} {fits : Bytes → Bytes → Prop}
    (keys sigs : List Bytes)
    (h : ∀ sig ∈ sigs, ∀ key ∈ keys, Decides refused (check sig key) (fits sig key)) :
    Decides refused (matchKeys check keys sigs) (Assignable fits sigs keys) := by
  induction keys generalizing sigs with
  | nil =>
    cases sigs with
    | nil => exact decides_pure (by simp [assignable_nil])
    | cons sig sigs =>
      refine decides_pure ⟨fun hfalse => (by cases hfalse), fun hassigned => ?_⟩
      have hle := hassigned.length_le
      simp at hle
  | cons key keys ih =>
    cases sigs with
    | nil => exact decides_pure (by simp [assignable_nil])
    | cons sig sigs =>
      unfold matchKeys
      split
      · next hfew =>
        refine decides_pure ⟨fun hfalse => (by cases hfalse), fun hassigned => ?_⟩
        have hle := hassigned.length_le
        simp only [List.length_cons] at hle
        omega
      · refine (h sig (.head _) key (.head _)).bind fun v hv => ?_
        cases v with
        | true =>
          rw [assignable_cons_cons (hv.mp rfl)]
          exact ih sigs fun s hs k hk => h s (.tail _ hs) k (.tail _ hk)
        | false =>
          rw [assignable_skip (fun hfits => by cases hv.mpr hfits)]
          exact ih (sig :: sigs) fun s hs k hk => h s hs k (.tail _ hk)

end Run

end CoinScript
