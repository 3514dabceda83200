import Mathlib

namespace Except

variable {ε α β : Type}

@[simp] theorem ok_bind (a : α) (f : α → Except ε β) : (Except.ok a >>= f) = f a := rfl

@[simp] theorem error_bind (e : ε) (f : α → Except ε β) : (Except.error e >>= f) = .error e := rfl

@[simp] theorem throw_eq_error (e : ε) : (throw e : Except ε α) = .error e := rfl

@[simp] theorem pure_eq_ok (a : α) : (pure a : Except ε α) = .ok a := rfl

@[simp] theorem mapError_ok {ε' : Type} (a : α) (f : ε → ε') :
    (Except.ok a : Except ε α).mapError f = .ok a := rfl

@[simp] theorem mapError_error {ε' : Type} (e : ε) (f : ε → ε') :
    (Except.error e : Except ε α).mapError f = .error (f e) := rfl

theorem bind_eq_ok {x : Except ε α} {f : α → Except ε β} {b : β} (h : (x >>= f) = .ok b) :
    ∃ a, x = .ok a ∧ f a = .ok b := by
  cases x with
  | error e => cases h
  | ok a => exact ⟨a, rfl, h⟩

theorem map_eq_ok {x : Except ε α} {f : α → β} {b : β} (h : x.map f = .ok b) :
    ∃ a, x = .ok a ∧ f a = b := by
  cases x with
  | error e => cases h
  | ok a =>
    simp only [Except.map, Except.ok.injEq] at h
    exact ⟨a, rfl, h⟩

theorem bind_eq_ok_iff {x : Except ε α} {f : α → Except ε β} {b : β} :
    (x >>= f) = .ok b ↔ ∃ a, x = .ok a ∧ f a = .ok b :=
  ⟨bind_eq_ok, fun ⟨a, ha, hf⟩ => by rw [ha]; exact hf⟩

theorem exists_error_iff {x : Except ε α} : (∃ e, x = .error e) ↔ ∀ a, x ≠ .ok a := by
  cases x <;> simp

theorem toOption_bind (x : Except ε α) (f : α → Except ε β) :
    (x >>= f).toOption = x.toOption.bind fun a => (f a).toOption := by
  cases x <;> rfl

theorem toOption_eq_of_ok_iff {ε' : Type} {x : Except ε α} {y : Except ε' α}
    (h : ∀ a, x = .ok a ↔ y = .ok a) : x.toOption = y.toOption := by
  cases x with
  | ok a => rw [(h a).mp rfl]; rfl
  | error e =>
    cases y with
    | ok b => exact absurd ((h b).mpr rfl) nofun
    | error e' => rfl

def ensure (c : Prop) [Decidable c] (e : ε) : Except ε Unit := if c then .ok () else .error e

theorem ensure_bind {c : Prop} [Decidable c] {e : ε} {f : Unit → Except ε β} :
    (ensure c e >>= f) = if c then f () else .error e := by
  unfold ensure
  split <;> rfl

theorem ite_error_eq_ok {c : Prop} [Decidable c] {x : Except ε α} {e : ε} {a : α} :
    (if c then x else .error e) = .ok a ↔ c ∧ x = .ok a := by
  by_cases hc : c <;> simp [hc]

theorem ite_error_left_eq_ok {c : Prop} [Decidable c] {x : Except ε α} {e : ε} {a : α} :
    (if c then .error e else x) = .ok a ↔ ¬c ∧ x = .ok a := by
  by_cases hc : c <;> simp [hc]

-- A check q made only when p holds, as unless q do throw e under if p reads once the throw is
-- taken: the computation goes on exactly when p implies q.
theorem ite_check_eq {p q : Prop} [Decidable p] [Decidable q] {x : Except ε α} {e : ε} :
    (if p then (if q then x else .error e) else x) = if p → q then x else .error e := by
  by_cases hp : p <;> simp [hp]

theorem dite_check_eq {p : Prop} [Decidable p] {q : p → Prop} [∀ h, Decidable (q h)]
    {x : Except ε α} {e : ε} :
    (if h : p then (if q h then x else .error e) else x) = if ∀ h : p, q h then x else .error e := by
  by_cases hp : p <;> simp [hp]

end Except

-- A computation that can fail with an error or panic, as ExceptT ε Option: none is a panic.
namespace ExceptT

variable {ε α β : Type}

@[simp] theorem lift_some (a : α) : (ExceptT.lift (some a) : ExceptT ε Option α) = pure a := rfl

@[simp] theorem lift_none_bind (f : α → ExceptT ε Option β) :
    (ExceptT.lift none >>= f : ExceptT ε Option β) = ExceptT.lift none := rfl

@[simp] theorem liftM_some (a : α) : (liftM (some a) : ExceptT ε Option α) = pure a := rfl

@[simp] theorem liftM_none_bind (f : α → ExceptT ε Option β) :
    (liftM (none : Option α) >>= f : ExceptT ε Option β) = ExceptT.lift none := rfl

@[simp] theorem mk_some_ok (a : α) : (ExceptT.mk (some (.ok a)) : ExceptT ε Option α) = pure a :=
  rfl

@[simp] theorem throw_bind (e : ε) (f : α → ExceptT ε Option β) :
    (throw e >>= f : ExceptT ε Option β) = throw e := rfl

end ExceptT

namespace List

variable {α : Type}

-- Two members of a list are equal or occur in one order or the other.
theorem mem_mem_pair_sublist {a b : α} : ∀ {l : List α}, a ∈ l → b ∈ l →
    a = b ∨ [a, b].Sublist l ∨ [b, a].Sublist l
  | [], ha, _ => by cases ha
  | x :: t, ha, hb => by
    rcases mem_cons.mp ha with rfl | ha' <;> rcases mem_cons.mp hb with rfl | hb'
    · exact .inl rfl
    · exact .inr (.inl (.cons_cons a (singleton_sublist.mpr hb')))
    · exact .inr (.inr (.cons_cons b (singleton_sublist.mpr ha')))
    · rcases mem_mem_pair_sublist ha' hb' with h | h | h
      · exact .inl h
      · exact .inr (.inl (h.cons x))
      · exact .inr (.inr (h.cons x))

theorem zip_append_of_length_eq {β : Type} {l : List α} {a b : List β} (h : l.length = a.length) :
    l.zip (a ++ b) = l.zip a := by
  have h' : (l ++ []).zip (a ++ b) = l.zip a ++ [].zip b := zip_append h
  rwa [append_nil, zip_nil_left, append_nil] at h'

theorem mapM_eq_pure {m : Type → Type} [Monad m] [LawfulMonad m] {β : Type} {f : α → m β}
    {g : α → β} : ∀ {l : List α}, (∀ a ∈ l, f a = pure (g a)) → l.mapM f = pure (l.map g)
  | [], _ => rfl
  | a :: l, h => by
    rw [mapM_cons, h a mem_cons_self, pure_bind,
      mapM_eq_pure fun b hb => h b (mem_cons_of_mem a hb), pure_bind, map_cons]

-- filter with a predicate that can panic, as .filter(|p| filter(*p)) with an assert inside:
-- List.filter when it never panics on the list, a panic when it does on one member.
theorem filterAuxM_eq_some {f : α → Option Bool} {g : α → Bool} :
    ∀ {l acc : List α}, (∀ a ∈ l, f a = some (g a)) →
      filterAuxM f l acc = some ((l.filter g).reverse ++ acc)
  | [], _, _ => rfl
  | a :: l, acc, h => by
    rw [filterAuxM, h a mem_cons_self, Option.bind_eq_bind, Option.bind_some,
      filterAuxM_eq_some fun b hb => h b (mem_cons_of_mem a hb)]
    cases hg : g a <;> simp [hg]

theorem filterM_eq_some {f : α → Option Bool} {g : α → Bool} {l : List α}
    (h : ∀ a ∈ l, f a = some (g a)) : l.filterM f = some (l.filter g) := by
  rw [filterM, filterAuxM_eq_some h]
  simp

theorem filterAuxM_eq_none {f : α → Option Bool} {a : α} (hf : f a = none) :
    ∀ {l acc : List α}, a ∈ l → filterAuxM f l acc = none
  | b :: l, acc, ha => by
    rw [filterAuxM]
    rcases mem_cons.mp ha with rfl | ha
    · rw [hf]
      rfl
    · cases f b with
      | none => rfl
      | some c => exact filterAuxM_eq_none hf ha

theorem filterM_eq_none {f : α → Option Bool} {a : α} {l : List α} (ha : a ∈ l)
    (hf : f a = none) : l.filterM f = none := by
  rw [filterM, filterAuxM_eq_none hf ha]
  rfl

section Lookup

variable {β : Type} [BEq α] [LawfulBEq α] {l : List (α × β)} {a : α} {b : β}

theorem lookup_eq_some_of_mem (hnd : (l.map Prod.fst).Nodup) (h : (a, b) ∈ l) :
    l.lookup a = some b := by
  induction l with
  | nil => cases h
  | cons p l ih =>
    obtain ⟨hp, hnd⟩ := nodup_cons.mp hnd
    rcases mem_cons.mp h with rfl | h
    · simp [lookup]
    · have hne : a ≠ p.1 := fun he => hp (he ▸ mem_map_of_mem h)
      simp only [lookup, beq_false_of_ne hne, ih hnd h]

theorem mem_of_lookup_eq_some (h : l.lookup a = some b) : (a, b) ∈ l := by
  obtain ⟨l₁, l₂, rfl, -⟩ := lookup_eq_some_iff.mp h
  simp

theorem lookup_eq_none_of_forall_ne (h : ∀ p ∈ l, p.1 ≠ a) : l.lookup a = none :=
  lookup_eq_none_iff.mpr fun p hp => bne_iff_ne.mpr (h p hp).symm

end Lookup

end List
