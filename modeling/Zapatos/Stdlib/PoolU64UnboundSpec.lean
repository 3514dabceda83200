import Mathlib
import Zapatos.Stdlib.PoolU64Unbound
import Zapatos.Lib.AListSum
import Zapatos.Lib.FloorDiv

namespace Zapatos.Stdlib.pool_u64_unbound

open Move AListSum

variable {p p' : Pool} {h h' : AccountAddress} {k s x : ℕ}

theorem shares_eq_valueAt : shares p h = valueAt p.shares h := by
  unfold shares valueAt
  split <;> simp_all

theorem contains_iff : contains p h = true ↔ h ∈ p.shares := table.contains_iff

theorem MAX_U64_eq : MAX_U64 = 2 ^ 64 - 1 := rfl

theorem MAX_U128_eq : MAX_U128 = 2 ^ 128 - 1 := rfl

theorem add_shares_eq_ok {r : Pool × ℕ} (hr : add_shares p h k = .ok r) :
    r = ({ p with shares := credit p.shares h k }, shares p h + k) := by
  unfold add_shares at hr
  split_ifs at hr with hc hk
  · obtain ⟨v, hv, hr⟩ := Except.bind_eq_ok hr
    rw [table.borrow_eq_ok] at hv
    dsimp only at hr
    split at hr
    · obtain ⟨w, hw, hr⟩ := Except.bind_eq_ok hr
      obtain ⟨t, ht, hr⟩ := Except.bind_eq_ok hr
      rw [checked_add_eq_ok] at hw
      rw [table.borrow_mut_eq_ok] at ht
      obtain ⟨-, rfl⟩ := hw
      obtain ⟨hm, rfl⟩ := ht
      simp only [Except.pure_eq_ok, Except.ok.injEq] at hr
      rw [← hr, credit, if_pos (.inl hm), shares_eq_valueAt, valueAt_of_lookup hv]
    · simp at hr
  · obtain ⟨t, ht, hr⟩ := Except.bind_eq_ok hr
    obtain ⟨hm, rfl⟩ := table.add_eq_ok.mp ht
    simp only [Except.pure_eq_ok, Except.ok.injEq] at hr
    rw [← hr, credit, if_pos (.inr hk), shares_eq_valueAt, valueAt_eq_zero hm, Nat.zero_add]
  · have hm : h ∉ p.shares := fun hm => hc (contains_iff.mpr hm)
    have hk : k = 0 := by omega
    simp only [Except.pure_eq_ok, Except.ok.injEq] at hr
    rw [← hr, credit, if_neg (by simp [hm, hk]), shares_eq_valueAt, valueAt_eq_zero hm, hk]

theorem lookup_of_contains (hc : contains p h = true) :
    p.shares.lookup h = some (shares p h) := by
  obtain ⟨v, hv⟩ := Option.isSome_iff_exists.mp (AList.lookup_isSome.mpr (contains_iff.mp hc))
  rw [hv, shares_eq_valueAt, valueAt_of_lookup hv]

theorem deduct_shares_eq (hc : contains p h = true) (hk : k ≤ shares p h) :
    deduct_shares p h k = .ok ({ p with shares := debit p.shares h k }, shares p h - k) := by
  have hv := lookup_of_contains hc
  have hm := contains_iff.mp hc
  unfold deduct_shares
  simp only [hc, ge_iff_le, hk, table.borrow, hv, checked_sub, table.borrow_mut, hm, if_true,
    Except.ok_bind, table.remove, AList.lookup_insert, debit, ← shares_eq_valueAt]
  split_ifs with hz
  · rw [hz, erase_insert_self]
    rfl
  · rfl

structure Inv (p : Pool) : Prop where
  total_shares_eq : p.total_shares = total p.shares
  positive : Positive p.shares
  total_coins_le : p.total_coins ≤ MAX_U64
  total_shares_le : p.total_shares ≤ MAX_U128

theorem Inv.shares_le (hp : Inv p) : shares p h ≤ p.total_shares := by
  rw [shares_eq_valueAt, hp.total_shares_eq]
  exact valueAt_le_total

theorem Inv.shares_add_shares_le (hp : Inv p) (hne : h ≠ h') :
    shares p h + shares p h' ≤ p.total_shares := by
  rw [shares_eq_valueAt, shares_eq_valueAt, hp.total_shares_eq]
  exact valueAt_add_valueAt_le_total hne

theorem shares_to_amount_eq (hp : Inv p) (hs : s ≤ p.total_shares) :
    shares_to_amount p s = .ok (s * p.total_coins / p.total_shares) := by
  have hc := hp.total_coins_le
  have hS := hp.total_shares_le
  have h64 := MAX_U64_eq
  have h128 := MAX_U128_eq
  unfold shares_to_amount shares_to_amount_with_total_coins
  split_ifs with h0
  · rcases h0 with h0 | h0 <;> simp [h0]
  · have hq : s * p.total_coins / p.total_shares ≤ p.total_coins :=
      Nat.div_le_of_le_mul (Nat.mul_le_mul_right _ hs)
    rw [multiply_then_divide, math128.mul_div_eq (by omega) (by omega) (by omega) (by omega),
      Except.ok_bind, Move.cast, if_pos (by omega)]

theorem balance_eq (hp : Inv p) :
    balance p h = .ok (shares p h * p.total_coins / p.total_shares) :=
  shares_to_amount_eq hp hp.shares_le

theorem amount_to_shares_eq_ok (hC : 0 < p.total_coins) (hS : 0 < p.total_shares)
    (hk : amount_to_shares p x = .ok k) : k = x * p.total_shares / p.total_coins := by
  unfold amount_to_shares amount_to_shares_with_total_coins at hk
  rw [if_neg (by omega)] at hk
  exact math128.mul_div_eq_ok hk

theorem buy_in_eq_ok {r : Pool × ℕ} (hr : buy_in p h x = .ok r) :
    x = 0 ∧ r = (p, 0) ∨
      0 < x ∧ amount_to_shares p x = .ok r.2 ∧ p.total_coins + x ≤ MAX_U64 ∧
        p.total_shares + r.2 ≤ MAX_U128 ∧
        r.1 = ⟨p.total_coins + x, p.total_shares + r.2, credit p.shares h r.2, p.scaling_factor⟩ := by
  unfold buy_in at hr
  by_cases hx : x = 0
  · rw [if_pos hx] at hr
    exact .inl ⟨hx, (Except.ok.inj hr).symm⟩
  · rw [if_neg hx] at hr
    right
    cases hk : amount_to_shares p x with
    | error e => simp [hk] at hr
    | ok k =>
      rw [hk, Except.ok_bind] at hr
      dsimp only at hr
      split at hr
      · split at hr
        · obtain ⟨c, hc, hr₁⟩ := Except.bind_eq_ok hr
          obtain ⟨t, ht, hr₂⟩ := Except.bind_eq_ok hr₁
          obtain ⟨q, hq, hr₃⟩ := Except.bind_eq_ok hr₂
          obtain ⟨hc64, rfl⟩ := checked_add_eq_ok.mp hc
          obtain ⟨ht128, rfl⟩ := checked_add_eq_ok.mp ht
          rw [add_shares_eq_ok hq] at hr₃
          obtain rfl := Except.ok.inj hr₃
          have h64 := MAX_U64_eq
          have h128 := MAX_U128_eq
          refine ⟨by omega, rfl, by omega, by simp only; omega, rfl⟩
        · simp at hr
      · simp at hr

theorem redeem_shares_guard {r : Pool × ℕ} (hr : redeem_shares p h s = .ok r) :
    contains p h = true ∧ s ≤ shares p h := by
  unfold redeem_shares at hr
  dsimp only at hr
  split at hr
  · split at hr
    · exact ⟨‹_›, ‹_›⟩
    · simp at hr
  · simp at hr

theorem redeem_shares_zero (hc : contains p h = true) : redeem_shares p h 0 = .ok (p, 0) := by
  simp [redeem_shares, hc]

theorem redeem_shares_eq (hp : Inv p) (hc : contains p h = true) (hs : s ≤ shares p h)
    (h0 : 0 < s) :
    redeem_shares p h s = .ok (⟨p.total_coins - s * p.total_coins / p.total_shares,
      p.total_shares - s, debit p.shares h s, p.scaling_factor⟩,
      s * p.total_coins / p.total_shares) := by
  have hS : s ≤ p.total_shares := hs.trans hp.shares_le
  have hq : s * p.total_coins / p.total_shares ≤ p.total_coins :=
    Nat.div_le_of_le_mul (Nat.mul_le_mul_right _ hS)
  unfold redeem_shares
  simp only [hc, ge_iff_le, hs, if_true, if_neg h0.ne', shares_to_amount_eq hp hS,
    Except.ok_bind, checked_sub, if_pos hq, if_pos hS]
  have hd := deduct_shares_eq (p := { p with
    total_coins := p.total_coins - s * p.total_coins / p.total_shares
    total_shares := p.total_shares - s }) hc hs
  rw [hd]
  rfl

theorem transfer_shares_eq_ok (hr : transfer_shares p h h' s = .ok p') :
    contains p h = true ∧ s ≤ shares p h ∧
      (s = 0 ∧ p' = p ∨ p' = { p with shares := credit (debit p.shares h s) h' s }) := by
  unfold transfer_shares at hr
  dsimp only at hr
  split at hr
  · rename_i hc
    split at hr
    · rename_i hs
      refine ⟨hc, hs, ?_⟩
      by_cases h0 : s = 0
      · rw [if_pos h0] at hr
        exact .inl ⟨h0, (Except.ok.inj hr).symm⟩
      · rw [if_neg h0, deduct_shares_eq hc hs, Except.ok_bind] at hr
        obtain ⟨q, hq, hr⟩ := Except.bind_eq_ok hr
        rw [add_shares_eq_ok hq] at hr
        exact .inr (Except.ok.inj hr).symm
    · simp at hr
  · simp at hr

theorem inv_create_with_scaling_factor (scaling_factor : ℕ) :
    Inv (create_with_scaling_factor scaling_factor) where
  total_shares_eq := rfl
  positive := fun _ _ hv => by simp [create_with_scaling_factor, AList.lookup_empty] at hv
  total_coins_le := Nat.zero_le _
  total_shares_le := Nat.zero_le _

theorem inv_update_total_coins {c : ℕ} (hp : Inv p) (hc : c ≤ MAX_U64) :
    Inv (update_total_coins p c) :=
  { hp with total_coins_le := hc }

theorem inv_buy_in {r : Pool × ℕ} (hp : Inv p) (hr : buy_in p h x = .ok r) : Inv r.1 := by
  rcases buy_in_eq_ok hr with ⟨-, rfl⟩ | ⟨-, -, hc, hs, hr1⟩
  · exact hp
  · rw [hr1]
    exact ⟨by rw [total_credit, ← hp.total_shares_eq], hp.positive.credit, hc, hs⟩

theorem inv_redeem_shares {r : Pool × ℕ} (hp : Inv p) (hr : redeem_shares p h s = .ok r) :
    Inv r.1 := by
  obtain ⟨hc, hs⟩ := redeem_shares_guard hr
  rcases Nat.eq_zero_or_pos s with rfl | h0
  · rw [redeem_shares_zero hc] at hr
    rw [← Except.ok.inj hr]
    exact hp
  · rw [redeem_shares_eq hp hc hs h0] at hr
    rw [← Except.ok.inj hr]
    have hd := total_debit (s := p.shares) (a := h) (k := s) (by rwa [← shares_eq_valueAt])
    exact ⟨by simp only; rw [hp.total_shares_eq]; omega, hp.positive.debit,
      le_trans (Nat.sub_le _ _) hp.total_coins_le, le_trans (Nat.sub_le _ _) hp.total_shares_le⟩

theorem inv_transfer_shares (hp : Inv p) (hr : transfer_shares p h h' s = .ok p') : Inv p' := by
  obtain ⟨-, hs, ⟨-, rfl⟩ | rfl⟩ := transfer_shares_eq_ok hr
  · exact hp
  · have hd := total_debit (s := p.shares) (a := h) (k := s) (by rwa [← shares_eq_valueAt])
    exact { hp with
      total_shares_eq := by rw [total_credit, hp.total_shares_eq]; omega
      positive := hp.positive.debit.credit }

inductive Reachable : Pool → Prop
  | create (scaling_factor : ℕ) : Reachable (create_with_scaling_factor scaling_factor)
  | buy_in {p : Pool} {r : Pool × ℕ} (shareholder : AccountAddress) (coins_amount : ℕ) :
      Reachable p → buy_in p shareholder coins_amount = .ok r → Reachable r.1
  | redeem_shares {p : Pool} {r : Pool × ℕ} (shareholder : AccountAddress)
      (shares_to_redeem : ℕ) :
      Reachable p → redeem_shares p shareholder shares_to_redeem = .ok r → Reachable r.1
  | transfer_shares {p p' : Pool} (shareholder_1 shareholder_2 : AccountAddress)
      (shares_to_transfer : ℕ) :
      Reachable p → transfer_shares p shareholder_1 shareholder_2 shares_to_transfer = .ok p' →
        Reachable p'
  | update_total_coins {p : Pool} (new_total_coins : ℕ) :
      Reachable p → new_total_coins ≤ MAX_U64 → Reachable (update_total_coins p new_total_coins)

theorem Reachable.inv (hp : Reachable p) : Inv p := by
  induction hp with
  | create scaling_factor => exact inv_create_with_scaling_factor scaling_factor
  | buy_in _ _ _ hr ih => exact inv_buy_in ih hr
  | redeem_shares _ _ _ hr ih => exact inv_redeem_shares ih hr
  | transfer_shares _ _ _ _ hr ih => exact inv_transfer_shares ih hr
  | update_total_coins _ _ hc ih => exact inv_update_total_coins ih hc

def worth (p : Pool) (h : AccountAddress) : ℕ := shares p h * p.total_coins / p.total_shares

theorem Inv.sum_worth_le (hp : Inv p) : (p.shares.keys.map (worth p)).sum ≤ p.total_coins := by
  have hkeys : (p.shares.keys.map (worth p)).sum =
      ((p.shares.entries.map Sigma.snd).map fun u => u * p.total_coins / p.total_shares).sum := by
    have hw : worth p = fun a => valueAt p.shares a * p.total_coins / p.total_shares :=
      funext fun _ => by rw [worth, shares_eq_valueAt]
    rw [hw, List.map_map]
    exact sum_keys_map fun u => u * p.total_coins / p.total_shares
  calc (p.shares.keys.map (worth p)).sum
      ≤ (p.shares.entries.map Sigma.snd).sum * p.total_coins / p.total_shares :=
        hkeys ▸ FloorDiv.sum_map_mul_div_le _ _ _
    _ = p.total_shares * p.total_coins / p.total_shares := by rw [hp.total_shares_eq]; rfl
    _ ≤ p.total_coins := Nat.div_le_of_le_mul le_rfl

theorem redeem_shares_worth (hp : Inv p) (hc : contains p h = true) (hs : s ≤ shares p h) :
    ∃ p' r, redeem_shares p h s = .ok (p', r) ∧ r ≤ worth p h ∧
      ∀ h', h' ≠ h → worth p h' ≤ worth p' h' := by
  rcases Nat.eq_zero_or_pos s with rfl | h0
  · exact ⟨p, 0, redeem_shares_zero hc, Nat.zero_le _, fun _ _ => le_rfl⟩
  refine ⟨_, _, redeem_shares_eq hp hc hs h0, Nat.div_le_div_right (Nat.mul_le_mul_right _ hs), ?_⟩
  intro h' hne
  have hsh : shares ⟨p.total_coins - s * p.total_coins / p.total_shares, p.total_shares - s,
      debit p.shares h s, p.scaling_factor⟩ h' = shares p h' := by
    rw [shares_eq_valueAt, shares_eq_valueAt]
    exact (valueAt_debit).trans (if_neg hne)
  unfold worth
  rw [hsh]
  rcases Nat.lt_or_ge s p.total_shares with hlt | hge
  · exact FloorDiv.mul_div_le_mul_sub_div_sub (Nat.div_mul_le_self _ _) hlt
  · have hsum := hp.shares_add_shares_le hne
    have hz : shares p h' = 0 := by omega
    simp [hz]

theorem buy_in_worth {k : ℕ} (hp : Inv p) (hC : 0 < p.total_coins) (hS : 0 < p.total_shares)
    (hr : buy_in p h x = .ok (p', k)) :
    worth p' h ≤ worth p h + x ∧ ∀ h', h' ≠ h → worth p h' ≤ worth p' h' := by
  rcases buy_in_eq_ok hr with ⟨-, hr⟩ | ⟨-, hk, -, -, hr⟩
  · obtain ⟨rfl, -⟩ := Prod.mk.inj hr
    exact ⟨Nat.le_add_right _ _, fun _ _ => le_rfl⟩
  · simp only at hk hr
    subst hr
    have hkx : k * p.total_coins ≤ x * p.total_shares := by
      rw [amount_to_shares_eq_ok hC hS hk]
      exact Nat.div_mul_le_self _ _
    have hsh : ∀ h', shares ⟨p.total_coins + x, p.total_shares + k, credit p.shares h k,
        p.scaling_factor⟩ h' = if h' = h then shares p h + k else shares p h' := by
      intro h'
      rw [shares_eq_valueAt, shares_eq_valueAt, shares_eq_valueAt]
      exact valueAt_credit
    refine ⟨?_, fun h' hne => ?_⟩
    · unfold worth
      rw [hsh, if_pos rfl]
      exact FloorDiv.add_mul_add_div_le hS hp.shares_le hkx
    · unfold worth
      rw [hsh, if_neg hne]
      exact FloorDiv.mul_div_le_mul_add_div_add hkx

theorem pool_shares_solvent_non_dilutive (hp : Reachable p) :
    p.total_shares = (p.shares.keys.map (shares p)).sum ∧
      (∀ h, contains p h = true → 0 < shares p h) ∧
      (∀ h, balance p h = .ok (worth p h)) ∧
      (p.shares.keys.map (worth p)).sum ≤ p.total_coins ∧
      (∀ h s, s ≤ shares p h →
        contains p h = false ∧
            redeem_shares p h s = .error (invalid_argument ESHAREHOLDER_NOT_FOUND) ∨
          ∃ p' r, redeem_shares p h s = .ok (p', r) ∧ r ≤ worth p h ∧
            ∀ h', h' ≠ h → worth p h' ≤ worth p' h') ∧
      (∀ h x p' k, 0 < p.total_coins → 0 < p.total_shares → buy_in p h x = .ok (p', k) →
        worth p' h ≤ worth p h + x ∧ ∀ h', h' ≠ h → worth p h' ≤ worth p' h') := by
  have hi := hp.inv
  refine ⟨?_, fun h hc => ?_, fun h => balance_eq hi, hi.sum_worth_le, fun h s hs => ?_,
    fun h x p' k hC hS hr => buy_in_worth hi hC hS hr⟩
  · have hs : shares p = valueAt p.shares := funext fun _ => shares_eq_valueAt
    rw [hi.total_shares_eq, ← sum_keys_valueAt, hs]
  · rw [shares_eq_valueAt]
    exact valueAt_pos_of_mem hi.positive (contains_iff.mp hc)
  · cases hc : contains p h with
    | false => exact .inl ⟨rfl, by simp [redeem_shares, hc]⟩
    | true => exact .inr (redeem_shares_worth hi hc hs)

theorem pool_shares_solvent_non_dilutive_one_holder :
    Reachable ⟨100, 100, (∅ : AList fun _ : AccountAddress => ℕ).insert 1 100, 1⟩ ∧
      balance ⟨100, 100, (∅ : AList fun _ : AccountAddress => ℕ).insert 1 100, 1⟩ 1 =
        .ok (worth ⟨100, 100, (∅ : AList fun _ : AccountAddress => ℕ).insert 1 100, 1⟩ 1) := by
  have hr : Reachable ⟨100, 100, (∅ : AList fun _ : AccountAddress => ℕ).insert 1 100, 1⟩ :=
    Reachable.buy_in (p := new) (r := (⟨100, 100, (∅ : AList _).insert 1 100, 1⟩, 100)) 1 100
      (.create 1) rfl
  exact ⟨hr, (pool_shares_solvent_non_dilutive hr).2.2.1 1⟩

end Zapatos.Stdlib.pool_u64_unbound
