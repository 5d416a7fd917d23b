/-!
# Steps that may fail

Lists of steps, each of which gives a value or fails: what is known if all of them succeed, when
they do, and which error comes out if they do not.
-/

namespace GeneGraph

section

variable {ε α β : Type} {f : α → Except ε β} {l : List α}

theorem bind_eq_ok {x : Except ε α} {b : β} :
    (x >>= f) = .ok b ↔ ∃ a, x = .ok a ∧ f a = .ok b := by
  cases x with
  | error e => exact ⟨nofun, fun ⟨_, h, _⟩ => nomatch h⟩
  | ok a => exact ⟨fun h => ⟨a, rfl, h⟩, fun ⟨_, h, hf⟩ => by cases h; exact hf⟩

theorem toOption_map_eq_some {x : Except ε α} {f : α → β} {b : β} :
    x.toOption.map f = some b ↔ ∃ a, x = .ok a ∧ f a = b := by
  cases x with
  | error e => exact ⟨nofun, fun ⟨_, h, _⟩ => nomatch h⟩
  | ok a =>
    exact ⟨fun h => ⟨a, rfl, Option.some.inj h⟩, fun ⟨_, h, hf⟩ => by cases h; rw [← hf]; rfl⟩

theorem mapM_ok {t : α → β} (hf : ∀ x y, f x = .ok y → y = t x) {ys : List β}
    (h : l.mapM f = .ok ys) : ys = l.map t := by
  induction l generalizing ys with
  | nil => cases h; rfl
  | cons x l ih =>
    rw [List.mapM_cons] at h
    obtain ⟨y, hy, h⟩ := bind_eq_ok.mp h
    obtain ⟨ys', hys, h⟩ := bind_eq_ok.mp h
    cases h
    rw [hf x y hy, ih hys, List.map_cons]

/-- Where each item has an answer under its own key, so has the list. -/
theorem mapM_eq_ok {κ : Type} {key : α → κ} {key' : β → κ} {P : β → Prop}
    (h : ∀ x ∈ l, ∃ y, f x = .ok y ∧ key' y = key x ∧ P y) :
    ∃ ys, l.mapM f = .ok ys ∧ ys.map key' = l.map key ∧ ∀ y ∈ ys, P y := by
  induction l with
  | nil => exact ⟨[], rfl, rfl, nofun⟩
  | cons x l ih =>
    obtain ⟨y, hy, hkey, hP⟩ := h x List.mem_cons_self
    obtain ⟨ys, hys, hkeys, hall⟩ := ih fun z hz => h z (List.mem_cons_of_mem x hz)
    refine ⟨y :: ys, ?_, ?_, List.forall_mem_cons.mpr ⟨hP, hall⟩⟩
    · rw [List.mapM_cons, hy, hys]
      rfl
    · rw [List.map_cons, List.map_cons, hkey, hkeys]

/-- Where each item has an answer, what is done with the answers can go on. -/
theorem bind_mapM_total {γ : Type} {P : β → Prop} {R : γ → Prop} {g : List β → Except ε γ}
    (h : ∀ x ∈ l, ∃ y, f x = .ok y ∧ P y)
    (hg : ∀ ys, (∀ y ∈ ys, P y) → ∃ z, g ys = .ok z ∧ R z) :
    ∃ z, (l.mapM f >>= g) = .ok z ∧ R z := by
  have hkeys : ∃ ys, l.mapM f = .ok ys ∧ ys.map (fun _ => ()) = l.map (fun _ => ()) ∧
      ∀ y ∈ ys, P y := mapM_eq_ok fun x hx => by
    obtain ⟨y, hy, hP⟩ := h x hx
    exact ⟨y, hy, rfl, hP⟩
  obtain ⟨ys, hys, -, hall⟩ := hkeys
  obtain ⟨z, hz, hR⟩ := hg ys hall
  exact ⟨z, bind_eq_ok.mpr ⟨ys, hys, hz⟩, hR⟩

/-- A list has answers only if each item has one. -/
theorem exists_of_mapM_ok {ys : List β} (h : l.mapM f = .ok ys) : ∀ x ∈ l, ∃ y, f x = .ok y := by
  induction l generalizing ys with
  | nil => exact fun x hx => absurd hx List.not_mem_nil
  | cons x l ih =>
    rw [List.mapM_cons] at h
    obtain ⟨y, hy, h⟩ := bind_eq_ok.mp h
    obtain ⟨ys', hys, -⟩ := bind_eq_ok.mp h
    exact List.forall_mem_cons.mpr ⟨⟨y, hy⟩, ih hys⟩

/-- The first item without an answer gives the error. -/
theorem mapM_eq_error {bad : α → Bool} {x : α} (err : α → ε)
    (hbad : ∀ x ∈ l, bad x = true → f x = .error (err x))
    (hgood : ∀ x ∈ l, bad x = false → ∃ y, f x = .ok y) (hx : l.find? bad = some x) :
    l.mapM f = .error (err x) := by
  induction l with
  | nil => cases hx
  | cons y l ih =>
    rw [List.mapM_cons]
    rw [List.find?_cons] at hx
    cases hy : bad y with
    | true =>
      rw [hy] at hx
      cases hx
      rw [hbad x List.mem_cons_self hy]
      rfl
    | false =>
      rw [hy] at hx
      obtain ⟨z, hz⟩ := hgood y List.mem_cons_self hy
      rw [hz, ih (fun z hz => hbad z (List.mem_cons_of_mem y hz))
        (fun z hz => hgood z (List.mem_cons_of_mem y hz)) hx]
      rfl

end

theorem mapM_map_eq_some {α β : Type} {f : β → Option α} {t : α → β} {l : List α}
    (h : ∀ x ∈ l, f (t x) = some x) : (l.map t).mapM f = some l := by
  induction l with
  | nil => rfl
  | cons x l ih =>
    rw [List.map_cons, List.mapM_cons, h x List.mem_cons_self,
      ih fun y hy => h y (List.mem_cons_of_mem x hy)]
    rfl

/-- A fold ends well if each step keeps what holds of the items behind it. -/
theorem foldlM_eq_ok {ε σ α : Type} {f : σ → α → Except ε σ} {l : List α} {s : σ}
    (inv : List α → σ → Prop) (hnil : inv [] s)
    (hstep : ∀ pre x post s, l = pre ++ x :: post → inv pre s →
      ∃ s', f s x = .ok s' ∧ inv (pre ++ [x]) s') :
    ∃ s', l.foldlM f s = .ok s' ∧ inv l s' := by
  suffices h : ∀ post pre s, l = pre ++ post → inv pre s →
      ∃ s', post.foldlM f s = .ok s' ∧ inv l s' from h l [] s rfl hnil
  intro post
  induction post with
  | nil =>
    intro pre s hl hs
    rw [List.append_nil] at hl
    exact ⟨s, rfl, hl ▸ hs⟩
  | cons x post ih =>
    intro pre s hl hs
    obtain ⟨s₁, hx, hs₁⟩ := hstep pre x post s hl hs
    obtain ⟨s', hfold, hs'⟩ := ih (pre ++ [x]) s₁ (by rw [hl, List.append_assoc]; rfl) hs₁
    refine ⟨s', ?_, hs'⟩
    rw [List.foldlM_cons, hx]
    exact hfold

/-- A fold that ends well has at its end what each step keeps. -/
theorem foldlM_ok {ε σ α : Type} {f : σ → α → Except ε σ} {l : List α} {s s' : σ}
    (inv : List α → σ → Prop) (hnil : inv [] s)
    (hstep : ∀ pre x post s s', l = pre ++ x :: post → inv pre s → f s x = .ok s' →
      inv (pre ++ [x]) s')
    (h : l.foldlM f s = .ok s') : inv l s' := by
  suffices hpost : ∀ post pre s, l = pre ++ post → inv pre s → post.foldlM f s = .ok s' →
      inv l s' from hpost l [] s rfl hnil h
  intro post
  induction post with
  | nil =>
    intro pre s hl hs hfold
    cases hfold
    rw [List.append_nil] at hl
    exact hl ▸ hs
  | cons x post ih =>
    intro pre s hl hs hfold
    rw [List.foldlM_cons] at hfold
    obtain ⟨s₁, hx, hfold⟩ := bind_eq_ok.mp hfold
    refine ih (pre ++ [x]) s₁ ?_ (hstep pre x post s s₁ hl hs hx) hfold
    rw [hl, List.append_assoc]
    rfl

end GeneGraph
