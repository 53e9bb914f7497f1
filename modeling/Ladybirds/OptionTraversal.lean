import Mathlib.Data.List.Basic

/-! # Traversals in `Option`

The passes stop at the first error, so their loops are `mapM` and `foldlM` in `Option`. A
successful `mapM` maps each element in place; a successful `foldlM` passes each element through
the step function once, from a state that the later steps only extend.
-/

namespace Ladybirds

section MapM

variable {α β : Type} {f : α → Option β}

theorem mapM_cons_eq_some {a : α} {l : List α} {rs : List β} :
    (a :: l).mapM f = some rs ↔ ∃ b bs, f a = some b ∧ l.mapM f = some bs ∧ rs = b :: bs := by
  simp only [List.mapM_cons, Option.bind_eq_bind, Option.bind_eq_some, Option.pure_def,
    Option.some.injEq]
  exact ⟨fun ⟨b, hb, bs, hbs, h⟩ => ⟨b, bs, hb, hbs, h.symm⟩,
    fun ⟨b, bs, hb, hbs, h⟩ => ⟨b, hb, bs, hbs, h.symm⟩⟩

/-- A successful `mapM` in `Option` maps each element in place. -/
theorem getElem?_mapM : ∀ {l : List α} {rs : List β}, l.mapM f = some rs →
    ∀ j : Nat, rs[j]? = l[j]?.bind f
  | [], rs, h, j => by
    simp only [List.mapM_nil, Option.pure_def, Option.some.injEq] at h
    simp [← h]
  | a :: l, rs, h, j => by
    obtain ⟨b, bs, hb, hbs, rfl⟩ := mapM_cons_eq_some.1 h
    cases j with
    | zero => simp [hb]
    | succ j => simpa using getElem?_mapM hbs j

theorem exists_of_mem_mapM : ∀ {l : List α} {rs : List β}, l.mapM f = some rs →
    ∀ a ∈ l, ∃ r ∈ rs, f a = some r
  | [], _, _, a, ha => absurd ha (List.not_mem_nil a)
  | b :: l, rs, h, a, ha => by
    obtain ⟨c, cs, hc, hcs, rfl⟩ := mapM_cons_eq_some.1 h
    rcases List.mem_cons.1 ha with rfl | ha
    · exact ⟨c, List.mem_cons_self _ _, hc⟩
    · obtain ⟨r, hr, hfr⟩ := exists_of_mem_mapM hcs a ha
      exact ⟨r, List.mem_cons_of_mem _ hr, hfr⟩

theorem exists_of_mem_mapM_result : ∀ {l : List α} {rs : List β}, l.mapM f = some rs →
    ∀ r ∈ rs, ∃ a ∈ l, f a = some r
  | [], rs, h, r, hr => by
    simp only [List.mapM_nil, Option.pure_def, Option.some.injEq] at h
    simp [← h] at hr
  | b :: l, rs, h, r, hr => by
    obtain ⟨c, cs, hc, hcs, rfl⟩ := mapM_cons_eq_some.1 h
    rcases List.mem_cons.1 hr with rfl | hr
    · exact ⟨b, List.mem_cons_self _ _, hc⟩
    · obtain ⟨a, ha, hfa⟩ := exists_of_mem_mapM_result hcs r hr
      exact ⟨a, List.mem_cons_of_mem _ ha, hfa⟩

theorem length_of_mapM : ∀ {l : List α} {rs : List β}, l.mapM f = some rs → rs.length = l.length
  | [], rs, h => by
    simp only [List.mapM_nil, Option.pure_def, Option.some.injEq] at h
    simp [← h]
  | a :: l, rs, h => by
    obtain ⟨b, bs, -, hbs, rfl⟩ := mapM_cons_eq_some.1 h
    simp [length_of_mapM hbs]

/-- `mapM` succeeds when the function succeeds on every element. -/
theorem exists_mapM_eq_some : ∀ {l : List α}, (∀ a ∈ l, ∃ b, f a = some b) →
    ∃ rs, l.mapM f = some rs
  | [], _ => ⟨[], rfl⟩
  | a :: l, h => by
    obtain ⟨b, hb⟩ := h a (List.mem_cons_self a l)
    obtain ⟨bs, hbs⟩ := exists_mapM_eq_some fun x hx => h x (List.mem_cons_of_mem a hx)
    exact ⟨b :: bs, mapM_cons_eq_some.2 ⟨b, bs, hb, hbs, rfl⟩⟩

theorem forall₂_of_mapM : ∀ {l : List α} {rs : List β}, l.mapM f = some rs →
    List.Forall₂ (fun a b => f a = some b) l rs
  | [], rs, h => by
    simp only [List.mapM_nil, Option.pure_def, Option.some.injEq] at h
    exact h ▸ .nil
  | a :: l, rs, h => by
    obtain ⟨b, bs, hb, hbs, rfl⟩ := mapM_cons_eq_some.1 h
    exact .cons hb (forall₂_of_mapM hbs)

end MapM

section FoldlM

variable {σ α : Type} {R : σ → σ → Prop} {f : σ → α → Option σ}

/-- If every step of a `foldlM` extends its state, for a reflexive and transitive `R`, so does
the whole fold, and each element went through a step whose result the rest of the fold
extends. -/
theorem foldlM_extends (hr : ∀ s, R s s) (ht : ∀ {s₁ s₂ s₃}, R s₁ s₂ → R s₂ s₃ → R s₁ s₃)
    (hf : ∀ s a s', f s a = some s' → R s s') :
    ∀ {l : List α} {s s' : σ}, l.foldlM f s = some s' →
      R s s' ∧ ∀ a ∈ l, ∃ s₁ s₂, f s₁ a = some s₂ ∧ R s₂ s'
  | [], s, s', h => by
    simp only [List.foldlM_nil, Option.pure_def, Option.some.injEq] at h
    exact ⟨h ▸ hr s, by simp⟩
  | a :: l, s, s', h => by
    simp only [List.foldlM_cons, Option.bind_eq_bind, Option.bind_eq_some] at h
    obtain ⟨s₁, h₁, hl⟩ := h
    obtain ⟨hR, hmem⟩ := foldlM_extends hr ht hf hl
    refine ⟨ht (hf s a s₁ h₁) hR, fun b hb => ?_⟩
    rcases List.mem_cons.1 hb with rfl | hb
    · exact ⟨s, s₁, h₁, hR⟩
    · exact hmem b hb

/-- A `foldlM` over a list holding an element on which every step fails, fails. -/
theorem foldlM_eq_none_of_mem {a : α} : ∀ {l : List α}, a ∈ l → (∀ s, f s a = none) →
    ∀ {s : σ}, l.foldlM f s = none
  | b :: l, h, ha, s => by
    rw [List.foldlM_cons]
    rcases List.mem_cons.1 h with rfl | h
    · simp [ha]
    · cases hb : f s b with
      | none => rfl
      | some s' => simpa [hb] using foldlM_eq_none_of_mem h ha

/-- A `foldlM` succeeds, with `P` of the whole list, when every step from a state satisfying `P`
of the elements done so far succeeds with `P` of one element more. -/
theorem exists_foldlM_of_step {P : List α → σ → Prop} {l : List α}
    (hf : ∀ done a s, a ∈ l → P done s → ∃ s', f s a = some s' ∧ P (done ++ [a]) s') :
    ∀ {rest done : List α} {s : σ}, (∀ a ∈ rest, a ∈ l) → P done s →
      ∃ s', rest.foldlM f s = some s' ∧ P (done ++ rest) s'
  | [], done, s, _, h => ⟨s, rfl, by rwa [List.append_nil]⟩
  | a :: rest, done, s, hl, h => by
    obtain ⟨s₁, h₁, hP⟩ := hf done a s (hl a (List.mem_cons_self _ _)) h
    obtain ⟨s', hs', hP'⟩ := exists_foldlM_of_step hf (fun b hb => hl b (List.mem_cons_of_mem _ hb)) hP
    exact ⟨s', by simp [h₁, hs'], by simpa using hP'⟩

end FoldlM

end Ladybirds
