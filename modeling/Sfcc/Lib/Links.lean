import Mathlib.Data.List.Chain
import Mathlib.Data.List.Nodup

-- Elements that are linked with each other in both directions.
namespace Links

variable {R : Type*} {next next' previous previous' : R → Option R} {rs xs ys : List R} {a b e : R} {i : ℕ}

-- Each element is linked with the one behind it, and none is linked twice.
structure Linked (next previous : R → Option R) (rs : List R) : Prop where
  chain : rs.IsChain fun a b => next a = some b ∧ previous b = some a
  nodup : rs.Nodup

theorem Linked.adjacent (h : Linked next previous rs) (ha : rs[i]? = some a) (hb : rs[i + 1]? = some b) :
    next a = some b ∧ previous b = some a := by
  have ⟨hi, ha⟩ := List.getElem?_eq_some_iff.mp ha
  have ⟨hj, hb⟩ := List.getElem?_eq_some_iff.mp hb
  exact ha ▸ hb ▸ List.isChain_iff_getElem.mp h.chain i hj

theorem Linked.congr (h : Linked next previous rs) (hn : ∀ r ∈ rs, next' r = next r)
    (hp : ∀ r ∈ rs, previous' r = previous r) : Linked next' previous' rs where
  chain := h.chain.imp_of_mem_imp fun a b ha hb ⟨hab, hba⟩ => ⟨(hn a ha).trans hab, (hp b hb).trans hba⟩
  nodup := h.nodup

section Change

-- The elements up to `a` and those from `b` on, where nothing changes but what stands between the two.
variable (hd : (xs ++ [a]).Disjoint (b :: ys))

include hd

theorem chain_left (h : (xs ++ [a]).IsChain fun a b => next a = some b ∧ previous b = some a)
    (ha : ∀ r, next a = some r → r ∉ xs ++ [a]) (hn : ∀ r ∈ xs ++ [a], r ≠ a → next' r = next r)
    (hp : ∀ r ∈ xs ++ [a], r ≠ b → previous' r = previous r) :
    (xs ++ [a]).IsChain fun a b => next' a = some b ∧ previous' b = some a := by
  refine h.imp_of_mem_imp fun x y hx hy ⟨hxy, hyx⟩ => ?_
  have hxa : x ≠ a := fun he => ha y (he ▸ hxy) hy
  have hyb : y ≠ b := fun he => hd hy (he ▸ List.mem_cons_self)
  exact ⟨(hn x hx hxa).trans hxy, (hp y hy hyb).trans hyx⟩

theorem chain_right (h : (b :: ys).IsChain fun a b => next a = some b ∧ previous b = some a)
    (hb : ∀ r, previous b = some r → r ∉ b :: ys) (hn : ∀ r ∈ b :: ys, r ≠ a → next' r = next r)
    (hp : ∀ r ∈ b :: ys, r ≠ b → previous' r = previous r) :
    (b :: ys).IsChain fun a b => next' a = some b ∧ previous' b = some a := by
  refine h.imp_of_mem_imp fun x y hx hy ⟨hxy, hyx⟩ => ?_
  have hxa : x ≠ a := fun he => hd (he ▸ List.mem_append_right _ List.mem_cons_self) hx
  have hyb : y ≠ b := fun he => hb x (he ▸ hyx) hx
  exact ⟨(hn x hx hxa).trans hxy, (hp y hy hyb).trans hyx⟩

end Change

-- A new element between two others.
theorem Linked.insert (h : Linked next previous (xs ++ a :: b :: ys)) (he : e ∉ xs ++ a :: b :: ys)
    (hn : ∀ r, r ≠ a → r ≠ e → next' r = next r) (hna : next' a = some e) (hne : next' e = some b)
    (hp : ∀ r, r ≠ b → r ≠ e → previous' r = previous r) (hpb : previous' b = some e) (hpe : previous' e = some a) :
    Linked next' previous' (xs ++ a :: e :: b :: ys) := by
  have hs : xs ++ a :: b :: ys = (xs ++ [a]) ++ b :: ys := List.append_cons ..
  have ⟨hl, hab, hr⟩ := List.isChain_append_cons_cons.mp h.chain
  have hd : (xs ++ [a]).Disjoint (b :: ys) := List.disjoint_of_nodup_append (hs ▸ h.nodup)
  have hel : ∀ r ∈ xs ++ [a], r ≠ e := fun r hm hr => he (hs ▸ List.mem_append_left _ (hr ▸ hm))
  have her : ∀ r ∈ b :: ys, r ≠ e := fun r hm hr => he (hs ▸ List.mem_append_right _ (hr ▸ hm))
  have hl' : (xs ++ [a]).IsChain fun a b => next' a = some b ∧ previous' b = some a := chain_left hd hl
    (fun r hr hm => hd hm (Option.some.inj (hab.left.symm.trans hr) ▸ List.mem_cons_self))
    (fun r hm hr => hn r hr (hel r hm)) (fun r hm hr => hp r hr (hel r hm))
  have hr' : (b :: ys).IsChain fun a b => next' a = some b ∧ previous' b = some a := chain_right hd hr
    (fun r hr hm => hd (Option.some.inj (hab.right.symm.trans hr) ▸ List.mem_append_right _ List.mem_cons_self) hm)
    (fun r hm hr => hn r hr (her r hm)) (fun r hm hr => hp r hr (her r hm))
  refine ⟨List.isChain_append_cons_cons.mpr ⟨hl', ⟨hna, hpe⟩, List.isChain_cons_cons.mpr ⟨⟨hne, hpb⟩, hr'⟩⟩, ?_⟩
  have hm : (xs ++ a :: e :: b :: ys).Perm (e :: (xs ++ a :: b :: ys)) := by
    rw [List.append_cons xs a (e :: b :: ys), List.append_cons xs a (b :: ys)]
    exact List.perm_middle
  exact hm.nodup_iff.mpr (List.nodup_cons.mpr ⟨he, h.nodup⟩)

-- An element between two others is taken out.
theorem Linked.erase (h : Linked next previous (xs ++ a :: e :: b :: ys))
    (hn : ∀ r, r ≠ a → r ≠ e → next' r = next r) (hna : next' a = some b)
    (hp : ∀ r, r ≠ b → r ≠ e → previous' r = previous r) (hpb : previous' b = some a) :
    Linked next' previous' (xs ++ a :: b :: ys) := by
  have hm : (xs ++ a :: e :: b :: ys).Perm (e :: (xs ++ a :: b :: ys)) := by
    rw [List.append_cons xs a (e :: b :: ys), List.append_cons xs a (b :: ys)]
    exact List.perm_middle
  have ⟨he, hnd⟩ := List.nodup_cons.mp (hm.nodup_iff.mp h.nodup)
  have hs : xs ++ a :: b :: ys = (xs ++ [a]) ++ b :: ys := List.append_cons ..
  have ⟨hl, hae, hr⟩ := List.isChain_append_cons_cons.mp h.chain
  have ⟨heb, hr⟩ := List.isChain_cons_cons.mp hr
  have hd : (xs ++ [a]).Disjoint (b :: ys) := List.disjoint_of_nodup_append (hs ▸ hnd)
  have hel : ∀ r ∈ xs ++ [a], r ≠ e := fun r hm hr => he (hs ▸ List.mem_append_left _ (hr ▸ hm))
  have her : ∀ r ∈ b :: ys, r ≠ e := fun r hm hr => he (hs ▸ List.mem_append_right _ (hr ▸ hm))
  have hl' : (xs ++ [a]).IsChain fun a b => next' a = some b ∧ previous' b = some a := chain_left hd hl
    (fun r hr hm => hel r hm (Option.some.inj (hr.symm.trans hae.left)))
    (fun r hm hr => hn r hr (hel r hm)) (fun r hm hr => hp r hr (hel r hm))
  have hr' : (b :: ys).IsChain fun a b => next' a = some b ∧ previous' b = some a := chain_right hd hr
    (fun r hr hm => her r hm (Option.some.inj (hr.symm.trans heb.right)))
    (fun r hm hr => hn r hr (her r hm)) (fun r hm hr => hp r hr (her r hm))
  exact ⟨List.isChain_append_cons_cons.mpr ⟨hl', ⟨hna, hpb⟩, hr'⟩, hnd⟩

theorem exists_parts (ha : rs[i]? = some a) (hb : rs[i + 1]? = some b) :
    ∃ xs ys, rs = xs ++ a :: b :: ys ∧ xs.length = i := by
  have ⟨hi, ha⟩ := List.getElem?_eq_some_iff.mp ha
  have ⟨hj, hb⟩ := List.getElem?_eq_some_iff.mp hb
  refine ⟨rs.take i, rs.drop (i + 2), ?_, List.length_take_of_le (Nat.le_of_lt hi)⟩
  rw [← ha, ← hb, ← List.drop_eq_getElem_cons hj, ← List.drop_eq_getElem_cons hi, List.take_append_drop]

theorem insertIdx_behind (xs ys : List R) (a e : R) :
    (xs ++ a :: ys).insertIdx (xs.length + 1) e = xs ++ a :: e :: ys := by
  induction xs with
  | nil          => rfl
  | cons x xs hi => rw [List.cons_append, List.length_cons, List.insertIdx_succ_cons, hi, List.cons_append]

theorem eraseIdx_behind (xs ys : List R) (a e : R) : (xs ++ a :: e :: ys).eraseIdx (xs.length + 1) = xs ++ a :: ys := by
  induction xs with
  | nil          => rfl
  | cons x xs hi => rw [List.cons_append, List.length_cons, List.eraseIdx_cons_succ, hi, List.cons_append]

theorem Linked.insertIdx (h : Linked next previous rs) (ha : rs[i]? = some a) (hb : rs[i + 1]? = some b) (he : e ∉ rs)
    (hn : ∀ r, r ≠ a → r ≠ e → next' r = next r) (hna : next' a = some e) (hne : next' e = some b)
    (hp : ∀ r, r ≠ b → r ≠ e → previous' r = previous r) (hpb : previous' b = some e) (hpe : previous' e = some a) :
    Linked next' previous' (rs.insertIdx (i + 1) e) := by
  have ⟨xs, ys, hs, hl⟩ := exists_parts ha hb
  subst hs hl
  rw [insertIdx_behind]
  exact h.insert he hn hna hne hp hpb hpe

theorem Linked.eraseIdx (h : Linked next previous rs) (ha : rs[i]? = some a) (he : rs[i + 1]? = some e)
    (hb : rs[i + 2]? = some b) (hn : ∀ r, r ≠ a → r ≠ e → next' r = next r) (hna : next' a = some b)
    (hp : ∀ r, r ≠ b → r ≠ e → previous' r = previous r) (hpb : previous' b = some a) :
    Linked next' previous' (rs.eraseIdx (i + 1)) := by
  have ⟨xs, ys, hs, hl⟩ := exists_parts ha he
  subst hs hl
  rw [eraseIdx_behind]
  cases ys with
  | nil       => simp at hb
  | cons c ys =>
    have hc : c = b := by
      rw [List.append_cons xs, List.append_cons (xs ++ [a])] at hb
      simpa using hb
    subst hc
    exact h.erase hn hna hp hpb

end Links
