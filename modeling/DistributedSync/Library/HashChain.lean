import Mathlib.Data.List.Forall2
import Mathlib.Data.List.Induction
import Mathlib.Data.Set.Insert

/-!
# Hash chains

A record has a content, of which the hash of the record before it is a part, and it stores a stamp.  A chain is intact
if each record is stamped with the digest of its content and links to the stamp of the one before it, the first one to a
fixed value.  Without collisions among the contents of the records involved the last stamp determines an intact chain
(`Intact.same`).  Hence a list of records of an intact chain is itself intact only if it is a prefix of it
(`Intact.prefix_of_subset`), and a chain with one record replaced is intact only if that is the last one
(`Intact.same_of_set`).
-/

structure HashChain (ε κ σ : Type) where
  content : ε → κ
  prev : κ → σ
  digest : κ → σ
  stamp : ε → σ
  genesis : σ

namespace HashChain

variable {ε κ σ : Type} (c : HashChain ε κ σ)

/-- The record stores the digest of its content. -/
def Stamped (e : ε) : Prop := c.stamp e = c.digest (c.content e)

/-- The stamp of the last record, and `start` where there is none. -/
def tip (start : σ) : List ε → σ
  | [] => start
  | e :: es => tip (c.stamp e) es

def IntactFrom (start : σ) : List ε → Prop
  | [] => True
  | e :: es => c.Stamped e ∧ c.prev (c.content e) = start ∧ IntactFrom (c.stamp e) es

def Intact (l : List ε) : Prop := c.IntactFrom c.genesis l

/-- The records agree in all that is hashed and in the stamp. -/
structure Same (e e' : ε) : Prop where
  content : c.content e = c.content e'
  stamp : c.stamp e = c.stamp e'

/-- No two contents of the records have the same digest, and none has the fixed value. -/
structure CollisionFree (s : Set ε) : Prop where
  content : ∀ e ∈ s, ∀ e' ∈ s, c.digest (c.content e) = c.digest (c.content e') → c.content e = c.content e'
  genesis : ∀ e ∈ s, c.digest (c.content e) ≠ c.genesis

variable {c} {l l' : List ε} {e e' x : ε} {start : σ} {s : Set ε}

theorem CollisionFree.mono {t : Set ε} (h : c.CollisionFree s) (hsub : t ⊆ s) : c.CollisionFree t where
  content e he e' he' := h.content e (hsub he) e' (hsub he')
  genesis e he := h.genesis e (hsub he)

/-! ### Chains and their ends -/

@[simp] theorem tip_nil : c.tip start [] = start := rfl

private theorem tip_append : c.tip start (l ++ l') = c.tip (c.tip start l) l' := by
  induction l generalizing start with
  | nil => rfl
  | cons e l ih => exact ih

@[simp] theorem tip_concat : c.tip start (l ++ [e]) = c.stamp e := by
  rw [tip_append]
  rfl

theorem tip_of_ne_nil (h : l ≠ []) : c.tip start l = c.stamp (l.getLast h) := by
  have hl : l = l.dropLast ++ [l.getLast h] := (List.dropLast_append_getLast h).symm
  calc c.tip start l = c.tip start (l.dropLast ++ [l.getLast h]) := by rw [← hl]
    _ = c.stamp (l.getLast h) := tip_concat

private theorem intactFrom_append :
    c.IntactFrom start (l ++ l') ↔ c.IntactFrom start l ∧ c.IntactFrom (c.tip start l) l' := by
  induction l generalizing start with
  | nil => simp [IntactFrom]
  | cons e l ih =>
    simp only [List.cons_append, IntactFrom, tip, ih]
    simp only [and_assoc]

@[simp] theorem intact_nil : c.Intact [] := trivial

theorem intact_concat :
    c.Intact (l ++ [e]) ↔ c.Intact l ∧ c.Stamped e ∧ c.prev (c.content e) = c.tip c.genesis l := by
  rw [Intact, intactFrom_append]
  simp [Intact, IntactFrom]

theorem Intact.of_prefix (h : c.Intact l) (hpre : l' <+: l) : c.Intact l' := by
  obtain ⟨t, rfl⟩ := hpre
  exact (intactFrom_append.1 h).1

theorem Same.symm (h : c.Same e e') : c.Same e' e := ⟨h.content.symm, h.stamp.symm⟩

/-! ### What the last stamp determines -/

/-- A record that ends a chain has another stamp than the fixed value, which is that of the empty chain. -/
private theorem tip_concat_ne (hfree : c.CollisionFree s) (he : e ∈ s) (h : c.Intact (l ++ [e])) :
    c.tip c.genesis (l ++ [e]) ≠ c.tip c.genesis [] := by
  have hstamped : c.Stamped e := (intact_concat.1 h).2.1
  rw [tip_concat, tip_nil, hstamped]
  exact hfree.genesis e he

/-- Two intact chains with the same last stamp agree record by record. -/
theorem Intact.same (hfree : c.CollisionFree s) (h : c.Intact l) (h' : c.Intact l') (hl : ∀ e ∈ l, e ∈ s)
    (hl' : ∀ e ∈ l', e ∈ s) (htip : c.tip c.genesis l = c.tip c.genesis l') : List.Forall₂ c.Same l l' := by
  -- from the ends backwards: equal stamps come from equal contents, and these link to equal stamps
  induction l using List.reverseRecOn generalizing l' with
  | nil =>
    rcases List.eq_nil_or_concat l' with rfl | ⟨xs, x, rfl⟩
    · exact List.Forall₂.nil
    · rw [List.concat_eq_append] at h' hl' htip
      exact absurd htip.symm (tip_concat_ne hfree (hl' x List.mem_concat_self) h')
  | append_singleton l e ih =>
    rcases List.eq_nil_or_concat l' with rfl | ⟨xs, x, rfl⟩
    · exact absurd htip (tip_concat_ne hfree (hl e List.mem_concat_self) h)
    · rw [List.concat_eq_append] at h' hl' htip ⊢
      obtain ⟨hintact, hstamped, hprev⟩ := intact_concat.1 h
      obtain ⟨hintact', hstamped', hprev'⟩ := intact_concat.1 h'
      rw [tip_concat, tip_concat] at htip
      have hdigest : c.digest (c.content e) = c.digest (c.content x) := by
        rw [← hstamped, ← hstamped', htip]
      have hcontent : c.content e = c.content x :=
        hfree.content e (hl e List.mem_concat_self) x (hl' x List.mem_concat_self) hdigest
      have hrest : c.tip c.genesis l = c.tip c.genesis xs := by rw [← hprev, ← hprev', hcontent]
      have hsame : List.Forall₂ c.Same l xs :=
        ih hintact hintact' (fun e he => hl e (List.mem_append_left _ he))
          (fun e he => hl' e (List.mem_append_left _ he)) hrest
      exact List.rel_append hsame (List.Forall₂.cons ⟨hcontent, htip⟩ List.Forall₂.nil)

/-- An intact list of records of an intact chain is a prefix of it: each of its records stands where the chain has
it, since it ends a prefix of the same length. -/
theorem Intact.prefix_of_subset (hfree : c.CollisionFree {e | e ∈ l}) (h : c.Intact l) (h' : c.Intact l')
    (hsub : ∀ e ∈ l', e ∈ l) : l' <+: l := by
  induction l' using List.reverseRecOn with
  | nil => exact List.nil_prefix
  | append_singleton xs x ih =>
    have hxs : xs <+: l :=
      ih (h'.of_prefix (List.prefix_append xs [x])) fun e he => hsub e (List.mem_append_left _ he)
    obtain ⟨p, q, hpq⟩ := List.append_of_mem (hsub x List.mem_concat_self)
    have hp : p ++ [x] <+: l := ⟨q, by rw [hpq, List.append_assoc, List.singleton_append]⟩
    have hsame : List.Forall₂ c.Same (xs ++ [x]) (p ++ [x]) :=
      h'.same hfree (h.of_prefix hp) hsub (fun e he => hp.subset he) (by rw [tip_concat, tip_concat])
    have hlength : xs.length = p.length := by simpa using hsame.length_eq
    have heq : xs = p := by
      rw [List.prefix_iff_eq_take.1 hxs, List.prefix_iff_eq_take.1 ((List.prefix_append p [x]).trans hp), hlength]
    rw [heq]
    exact hp

/-- An intact chain with one record other than the last replaced agrees with the old one. -/
theorem Intact.same_of_set {i : Nat} (hfree : c.CollisionFree s) (h : c.Intact l) (h' : c.Intact (l.set i x))
    (hl : ∀ e ∈ l, e ∈ s) (hl' : ∀ e ∈ l.set i x, e ∈ s) (hi : i + 1 < l.length) :
    List.Forall₂ c.Same (l.set i x) l := by
  refine h'.same hfree h hl' hl ?_
  rcases List.eq_nil_or_concat l with rfl | ⟨p, z, rfl⟩
  · simp
  · have hlt : i < p.length := by
      simp only [List.concat_eq_append, List.length_append, List.length_singleton] at hi
      omega
    rw [List.concat_eq_append, List.set_append_left _ _ hlt, tip_concat, tip_concat]

end HashChain
