import Mathlib

/-! Items kept in places. A system that hands items from one place to the next neither
duplicates nor loses any of them if each of its steps only rearranges a place, moves items
between two places, takes a new item in or gives an item away. -/
namespace ThreadScan.Custody

variable {ι α : Type*} {bag bag' : ι → List α}

/-- No item is in two places, or twice in one. -/
structure Exclusive (bag : ι → List α) : Prop where
  nodup : ∀ p, (bag p).Nodup
  apart : ∀ p q a, a ∈ bag p → a ∈ bag q → p = q

def Held (bag : ι → List α) (a : α) : Prop := ∃ p, a ∈ bag p

/-- What a step does with the items of the outside world. -/
inductive Effect (α : Type*)
  | keep
  | take (a : α)
  | give (a : α)

inductive Change (bag bag' : ι → List α) : Effect α → Prop
  | rearranged (h : ∀ p, (bag' p).Perm (bag p)) : Change bag bag' .keep
  | moved (p q : ι) (l r : List α) (ne : p ≠ q) (before : (bag p).Perm (l ++ r))
      (rest : (bag' p).Perm r) (after : (bag' q).Perm (bag q ++ l))
      (other : ∀ x, x ≠ p → x ≠ q → (bag' x).Perm (bag x)) : Change bag bag' .keep
  | taken (p : ι) (a : α) (after : (bag' p).Perm (a :: bag p))
      (other : ∀ x, x ≠ p → (bag' x).Perm (bag x)) : Change bag bag' (.take a)
  | given (p : ι) (a : α) (before : (bag p).Perm (a :: bag' p))
      (other : ∀ x, x ≠ p → (bag' x).Perm (bag x)) : Change bag bag' (.give a)

theorem Change.refl (bag : ι → List α) : Change bag bag .keep :=
  .rearranged fun _ => List.Perm.refl _

/-- A place whose contents are rearranged, all others being left alone. -/
theorem Change.of_perm {p : ι} (h : (bag' p).Perm (bag p))
    (other : ∀ x, x ≠ p → bag' x = bag x) : Change bag bag' .keep := by
  refine .rearranged fun x => ?_
  by_cases hx : x = p
  · exact hx ▸ h
  · rw [other x hx]

/-- Where an item is held after a move. -/
theorem mem_moved {p q : ι} {l r : List α} (before : (bag p).Perm (l ++ r))
    (rest : (bag' p).Perm r) (after : (bag' q).Perm (bag q ++ l))
    (other : ∀ x, x ≠ p → x ≠ q → (bag' x).Perm (bag x)) {x : ι} {a : α} (h : a ∈ bag' x) :
    x ≠ q ∧ a ∈ bag x ∧ (x = p → a ∈ r) ∨ x = q ∧ (a ∈ bag q ∨ a ∈ bag p ∧ a ∈ l) := by
  by_cases hq : x = q
  · subst hq
    refine .inr ⟨rfl, ?_⟩
    obtain hx | hl := List.mem_append.mp (after.mem_iff.mp h)
    · exact .inl hx
    · exact .inr ⟨before.mem_iff.mpr (List.mem_append_left _ hl), hl⟩
  · by_cases hp : x = p
    · subst hp
      have hr := rest.mem_iff.mp h
      exact .inl ⟨hq, before.mem_iff.mpr (List.mem_append_right _ hr), fun _ => hr⟩
    · exact .inl ⟨hq, (other x hp hq).mem_iff.mp h, fun he => absurd he hp⟩

/-- A step hands items on without copying them, if it takes in what nobody holds. -/
theorem Change.exclusive {e : Effect α} (h : Change bag bag' e) (ex : Exclusive bag)
    (fresh : ∀ a, e = .take a → ¬ Held bag a) : Exclusive bag' := by
  cases h with
  | rearranged h =>
    refine ⟨fun p => (h p).nodup_iff.mpr (ex.nodup p), fun p q a hp hq => ?_⟩
    exact ex.apart p q a ((h p).mem_iff.mp hp) ((h q).mem_iff.mp hq)
  | moved p q l r ne before rest after other =>
    have hsplit := before.nodup_iff.mp (ex.nodup p)
    have hdisj := List.nodup_append'.mp hsplit
    constructor
    · intro x
      by_cases hp : x = p
      · subst hp
        exact rest.nodup_iff.mpr hdisj.2.1
      by_cases hq : x = q
      · subst hq
        refine after.nodup_iff.mpr (List.nodup_append'.mpr ⟨ex.nodup x, hdisj.1, ?_⟩)
        intro a hx hl
        exact ne (ex.apart p x a (before.mem_iff.mpr (List.mem_append_left _ hl)) hx)
      · exact (other x hp hq).nodup_iff.mpr (ex.nodup x)
    · intro x y a hx hy
      have hapart : a ∈ l → a ∉ r := fun hl hr => hdisj.2.2 hl hr
      obtain ⟨hxq, hxa, hxr⟩ | ⟨rfl, hxa⟩ := mem_moved before rest after other hx <;>
        obtain ⟨hyq, hya, hyr⟩ | ⟨rfl, hya⟩ := mem_moved before rest after other hy
      · exact ex.apart x y a hxa hya
      · obtain hya | ⟨hya, hl⟩ := hya
        · exact ex.apart x y a hxa hya
        · exact absurd (hxr (ex.apart x p a hxa hya)) (hapart hl)
      · obtain hxa | ⟨hxa, hl⟩ := hxa
        · exact ex.apart x y a hxa hya
        · exact absurd (hyr (ex.apart y p a hya hxa)) (hapart hl)
      · rfl
  | taken p a after other =>
    have hnew : ∀ x, a ∉ bag x := fun x hx => fresh a rfl ⟨x, hx⟩
    have hmem : ∀ x b, b ∈ bag' x → x = p ∧ b = a ∨ b ∈ bag x := by
      intro x b hb
      by_cases hx : x = p
      · subst hx
        exact (List.mem_cons.mp (after.mem_iff.mp hb)).imp_left fun he => ⟨rfl, he⟩
      · exact .inr ((other x hx).mem_iff.mp hb)
    constructor
    · intro x
      by_cases hx : x = p
      · subst hx
        exact after.nodup_iff.mpr (List.nodup_cons.mpr ⟨hnew x, ex.nodup x⟩)
      · exact (other x hx).nodup_iff.mpr (ex.nodup x)
    · intro x y b hx hy
      obtain ⟨rfl, rfl⟩ | hxb := hmem x b hx
      · obtain ⟨rfl, -⟩ | hyb := hmem y b hy
        · rfl
        · exact absurd hyb (hnew y)
      · obtain ⟨rfl, rfl⟩ | hyb := hmem y b hy
        · exact absurd hxb (hnew x)
        · exact ex.apart x y b hxb hyb
  | given p a before other =>
    have hsub : ∀ x b, b ∈ bag' x → b ∈ bag x := by
      intro x b hb
      by_cases hx : x = p
      · subst hx
        exact before.mem_iff.mpr (List.mem_cons_of_mem _ hb)
      · exact (other x hx).mem_iff.mp hb
    constructor
    · intro x
      by_cases hx : x = p
      · subst hx
        exact (List.nodup_cons.mp (before.nodup_iff.mp (ex.nodup x))).2
      · exact (other x hx).nodup_iff.mpr (ex.nodup x)
    · exact fun x y b hx hy => ex.apart x y b (hsub x b hx) (hsub y b hy)

/-- Moving and rearranging keep every item held. -/
theorem Change.held_keep (h : Change bag bag' .keep) (a : α) : Held bag' a ↔ Held bag a := by
  cases h with
  | rearranged h => exact exists_congr fun p => (h p).mem_iff
  | moved p q l r ne before rest after other =>
    constructor
    · rintro ⟨x, hx⟩
      obtain ⟨-, hxa, -⟩ | ⟨rfl, hxa | ⟨hxa, -⟩⟩ := mem_moved before rest after other hx
      · exact ⟨x, hxa⟩
      · exact ⟨x, hxa⟩
      · exact ⟨p, hxa⟩
    · rintro ⟨x, hx⟩
      by_cases hp : x = p
      · subst hp
        obtain hl | hr := List.mem_append.mp (before.mem_iff.mp hx)
        · exact ⟨q, after.mem_iff.mpr (List.mem_append_right _ hl)⟩
        · exact ⟨x, rest.mem_iff.mpr hr⟩
      by_cases hq : x = q
      · subst hq
        exact ⟨x, after.mem_iff.mpr (List.mem_append_left _ hx)⟩
      · exact ⟨x, (other x hp hq).mem_iff.mpr hx⟩

theorem Change.held_take {b : α} (h : Change bag bag' (.take b)) (a : α) :
    Held bag' a ↔ a = b ∨ Held bag a := by
  cases h with
  | taken p _ after other =>
    constructor
    · rintro ⟨x, hx⟩
      by_cases hp : x = p
      · subst hp
        exact (List.mem_cons.mp (after.mem_iff.mp hx)).imp_right fun hm => ⟨x, hm⟩
      · exact .inr ⟨x, (other x hp).mem_iff.mp hx⟩
    · rintro (rfl | ⟨x, hx⟩)
      · exact ⟨p, after.mem_iff.mpr List.mem_cons_self⟩
      by_cases hp : x = p
      · subst hp
        exact ⟨x, after.mem_iff.mpr (List.mem_cons_of_mem _ hx)⟩
      · exact ⟨x, (other x hp).mem_iff.mpr hx⟩

/-- What is given away was held, once. -/
theorem Change.held_give {b : α} (h : Change bag bag' (.give b)) (ex : Exclusive bag) :
    Held bag b ∧ ∀ a, Held bag' a ↔ a ≠ b ∧ Held bag a := by
  cases h with
  | given p _ before other =>
    have hb : b ∈ bag p := before.mem_iff.mpr List.mem_cons_self
    have hgone := (List.nodup_cons.mp (before.nodup_iff.mp (ex.nodup p))).1
    refine ⟨⟨p, hb⟩, fun a => ⟨?_, ?_⟩⟩
    · rintro ⟨x, hx⟩
      by_cases hp : x = p
      · subst hp
        refine ⟨fun he => hgone (he ▸ hx), x, before.mem_iff.mpr (List.mem_cons_of_mem _ hx)⟩
      · have hx' := (other x hp).mem_iff.mp hx
        exact ⟨fun he => hp (ex.apart x p b (he ▸ hx') hb), x, hx'⟩
    · rintro ⟨hne, x, hx⟩
      by_cases hp : x = p
      · subst hp
        exact ⟨x, List.mem_of_ne_of_mem hne (before.mem_iff.mp hx)⟩
      · exact ⟨x, (other x hp).mem_iff.mpr hx⟩

/-- Several new items arrive at one place. -/
theorem Exclusive.gather {p : ι} {l : List α} (ex : Exclusive bag)
    (after : (bag' p).Perm (l ++ bag p)) (other : ∀ x, x ≠ p → bag' x = bag x) (nodup : l.Nodup)
    (fresh : ∀ a ∈ l, ¬ Held bag a) :
    Exclusive bag' ∧ ∀ a, Held bag' a ↔ a ∈ l ∨ Held bag a := by
  have hmem : ∀ x a, a ∈ bag' x ↔ x = p ∧ a ∈ l ∨ a ∈ bag x := by
    intro x a
    by_cases hx : x = p
    · subst hx
      simp [after.mem_iff]
    · simp [other x hx, hx]
  refine ⟨⟨fun x => ?_, fun x y a hx hy => ?_⟩, fun a => ?_⟩
  · by_cases hx : x = p
    · subst hx
      refine after.nodup_iff.mpr (List.nodup_append'.mpr ⟨nodup, ex.nodup x, fun a hl hb => ?_⟩)
      exact fresh a hl ⟨x, hb⟩
    · rw [other x hx]
      exact ex.nodup x
  · rcases (hmem x a).mp hx with ⟨rfl, hl⟩ | hx <;> rcases (hmem y a).mp hy with ⟨rfl, hl'⟩ | hy
    · rfl
    · exact absurd ⟨y, hy⟩ (fresh a hl)
    · exact absurd ⟨x, hx⟩ (fresh a hl')
    · exact ex.apart x y a hx hy
  · simp only [Held, hmem, exists_or, exists_eq_left]

/-- An item outside of a selection is nobody's business. -/
def Effect.select (keep : α → Bool) : Effect α → Effect α
  | .keep => .keep
  | .take a => if keep a then .take a else .keep
  | .give a => if keep a then .give a else .keep

/-- A step changes a selection of the items as it changes all of them. -/
theorem Change.select {e : Effect α} (h : Change bag bag' e) (keep : α → Bool) :
    Change (fun p => (bag p).filter keep) (fun p => (bag' p).filter keep) (e.select keep) := by
  cases h with
  | rearranged h => exact .rearranged fun p => (h p).filter keep
  | moved p q l r ne before rest after other =>
    refine .moved p q (l.filter keep) (r.filter keep) ne ?_ (rest.filter keep) ?_
      fun x hp hq => (other x hp hq).filter keep
    · exact List.filter_append l r ▸ before.filter keep
    · exact List.filter_append (bag q) l ▸ after.filter keep
  | taken p a after other =>
    have hfilter := after.filter keep
    simp only [Effect.select]
    split_ifs with ha
    · rw [List.filter_cons_of_pos ha] at hfilter
      exact .taken p a hfilter fun x hx => (other x hx).filter keep
    · rw [List.filter_cons_of_neg ha] at hfilter
      refine .rearranged fun x => ?_
      by_cases hx : x = p
      · exact hx ▸ hfilter
      · exact (other x hx).filter keep
  | given p a before other =>
    have hfilter := before.filter keep
    simp only [Effect.select]
    split_ifs with ha
    · rw [List.filter_cons_of_pos ha] at hfilter
      exact .given p a hfilter fun x hx => (other x hx).filter keep
    · rw [List.filter_cons_of_neg ha] at hfilter
      refine .rearranged fun x => ?_
      by_cases hx : x = p
      · exact hx ▸ hfilter.symm
      · exact (other x hx).filter keep

end ThreadScan.Custody
