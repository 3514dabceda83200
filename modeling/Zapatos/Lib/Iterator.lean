import Zapatos.Lib.Basic

namespace Zapatos.Iterator

variable {σ α : Type} (next : σ → Option (Option α × σ))

-- The items an iterator yields from a state until next reports the end, with no panic on the
-- way: next returns none for a panic, some (none, s') at the end, some (some a, s') for an item.
inductive Yields : σ → List α → Prop
  | done {s s' : σ} : next s = some (none, s') → Yields s []
  | yield {s s' : σ} {a : α} {l : List α} :
      next s = some (some a, s') → Yields s' l → Yields s (a :: l)

theorem Yields.unique {s : σ} {l l' : List α} (h : Yields next s l) (h' : Yields next s l') :
    l = l' := by
  induction h generalizing l' with
  | done hnext =>
    cases h' with
    | done _ => rfl
    | yield hnext' _ => simp [hnext] at hnext'
  | yield hnext _ ih =>
    cases h' with
    | done hnext' => simp [hnext] at hnext'
    | yield hnext' hrest =>
      rw [hnext] at hnext'
      simp only [Option.some.injEq, Prod.mk.injEq, Option.some.injEq] at hnext'
      obtain ⟨rfl, rfl⟩ := hnext'
      rw [ih hrest]

-- The rule for a whole run: an invariant that every step keeps while a measure falls, with the
-- items related to the state one step at a time.
theorem exists_yields (Inv : σ → Prop) (Out : σ → List α → Prop) (μ : σ → ℕ)
    (hstep : ∀ s, Inv s → (∃ s', next s = some (none, s') ∧ Out s []) ∨
      ∃ a s', next s = some (some a, s') ∧ Inv s' ∧ μ s' < μ s ∧ ∀ l, Out s' l → Out s (a :: l))
    {s : σ} (hs : Inv s) : ∃ l, Out s l ∧ Yields next s l := by
  induction hμ : μ s using Nat.strong_induction_on generalizing s with
  | _ m ih =>
    rcases hstep s hs with ⟨s', hnext, hout⟩ | ⟨a, s', hnext, hinv, hlt, hout⟩
    · exact ⟨[], hout, .done hnext⟩
    · obtain ⟨l, hl, hy⟩ := ih (μ s') (hμ ▸ hlt) hinv rfl
      exact ⟨a :: l, hout l hl, .yield hnext hy⟩

-- Iterator::map(f).collect::<Result<Vec<_>>>() with a fallible f: the first error ends it. The
-- Rust loop needs no fuel; the iterators it runs end within a known number of items, and fuel
-- past that number is never used.
def collect_map {ε β : Type} (f : α → ExceptT ε Option β) : ℕ → σ → ExceptT ε Option (List β)
  | 0, _ => ExceptT.lift none
  | fuel + 1, s => do
    let (item, s') ← ExceptT.lift (next s)
    match item with
    | none => pure []
    | some a => do
      let b ← f a
      let rest ← collect_map f fuel s'
      pure (b :: rest)

theorem collect_map_of_yields {ε β : Type} (f : α → ExceptT ε Option β) {s : σ} {l : List α}
    (h : Yields next s l) {fuel : ℕ} (hfuel : l.length < fuel) :
    collect_map next f fuel s = l.mapM f := by
  induction h generalizing fuel with
  | done hnext =>
    obtain ⟨fuel, rfl⟩ : ∃ f', fuel = f' + 1 := ⟨fuel - 1, by omega⟩
    simp [collect_map, hnext]
  | yield hnext _ ih =>
    obtain ⟨fuel, rfl⟩ : ∃ f', fuel = f' + 1 := ⟨fuel - 1, by omega⟩
    simp only [List.length_cons, Nat.add_lt_add_iff_right] at hfuel
    simp [collect_map, hnext, ih hfuel, List.mapM_cons]

end Zapatos.Iterator
