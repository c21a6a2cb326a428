import Mathlib.Data.ENat.Basic
import Mathlib.Data.Finset.Card
import Mathlib.Data.List.Chain
import Mathlib.Logic.Relation

/-! Shortest paths by a traversal in depth that stores for every node the shortest path found so far.
A node that is no nearer than stored is not gone through again, nor is one on the path itself. -/
namespace PucRio.StoredPaths
variable {α : Type*}

section Walk
variable {next : α → List α} {o a : α} {p : List α}

/-- A walk from `o`, written from its end. -/
inductive Walk (next : α → List α) (o : α) : List α → Prop
  | here : Walk next o [o]
  | next {a b : α} {p : List α} (h : Walk next o (a::p)) (hb : b ∈ next a) : Walk next o (b::a::p)

theorem Walk.origin_mem (h : Walk next o p) : o ∈ p := by
  induction h with
  | here => exact List.mem_singleton_self o
  | next _ _ ih => exact List.mem_cons_of_mem _ ih

theorem Walk.reaches (h : Walk next o (a::p)) :
    Relation.ReflTransGen (fun a b => b ∈ next a) o a := by
  generalize hq : a::p = q at h
  induction h generalizing a p with
  | here =>
    obtain ⟨rfl,-⟩ := List.cons.inj hq
    exact .refl
  | next _ hb ih =>
    obtain ⟨rfl,-⟩ := List.cons.inj hq
    exact (ih rfl).tail hb

theorem walk_iff :
    Walk next o p ↔ p.getLast? = some o ∧ p.IsChain fun b a => b ∈ next a := by
  constructor
  · intro h
    induction h with
    | here => exact ⟨rfl,.singleton o⟩
    | next _ hb ih => exact ⟨List.getLast?_cons_cons.trans ih.1,List.isChain_cons_cons.mpr ⟨hb,ih.2⟩⟩
  · rintro ⟨ho,hp⟩
    induction p with
    | nil => cases ho
    | cons b p ih =>
      cases p with
      | nil =>
        obtain rfl := Option.some.inj ho
        exact .here
      | cons a p =>
        rw [List.isChain_cons_cons] at hp
        rw [List.getLast?_cons_cons] at ho
        exact .next (ih ho hp.2) hp.1

end Walk

variable [DecidableEq α]

/-- The paths that are stored, each from its end, with their lengths. -/
abbrev Table (α : Type*) := List (List α × ℕ)

def leadsTo (a : α) (e : List α × ℕ) : Bool := e.1.head? == some a

def stored (t : Table α) (a : α) : Option (List α × ℕ) := t.find? (leadsTo a)

/-- The path `a::p` is stored if it is the first one to `a` or shorter than the one stored. -/
def shorterPath (t : Table α) (a : α) (p : List α) (d : ℕ) : Option (Table α) :=
  (stored t a).elim (some (t++[(a::p,d)])) fun e =>
    if d < e.2 then some (t.eraseP (leadsTo a)++[(a::p,d)]) else none

/-- The neighbour `b` of `a`, which was reached by the path `p` of length `d`. -/
def visit (go : α → List α → ℕ → Table α → Table α) (a : α) (p : List α) (d : ℕ) (t : Table α)
    (b : α) : Table α :=
  if b ∈ p then t else (shorterPath t b (a::p) (d+1)).elim t (go b (a::p) (d+1))

/-- Go on from `a`, over less than `n` nodes that are not on the path. -/
def traverse (next : α → List α) : ℕ → α → List α → ℕ → Table α → Table α
  | 0,_,_,_,t => t
  | n+1,a,p,d,t => (next a).foldl (visit (traverse next n) a p d) t

section Table
variable {t t' : Table α} {a b : α} {p : List α} {d : ℕ}

/-- There is a path to the node. -/
def Stored (t : Table α) (a : α) : Prop := ∃ e ∈ t, leadsTo a e = true

theorem stored_isSome : (stored t a).isSome ↔ Stored t a := List.find?_isSome

theorem leadsTo_cons : leadsTo b (a::p,d) = true ↔ b = a := by
  rw [leadsTo,beq_iff_eq,List.head?_cons,Option.some_inj,eq_comm]

theorem shorterPath_none (h : shorterPath t a p d = none) : Stored t a := by
  rw [← stored_isSome]
  cases hs : stored t a with
  | none =>
    rw [shorterPath,hs] at h
    cases h
  | some e => rfl

/-- One path comes in, for a path to the same node if there is one. -/
theorem shorterPath_some (h : shorterPath t a p d = some t') :
    ∃ u, t' = u++[(a::p,d)] ∧ (∀ e ∈ u, e ∈ t) ∧ ∀ e ∈ t, leadsTo a e = false → e ∈ u := by
  cases hs : stored t a with
  | none =>
    rw [shorterPath,hs] at h
    exact ⟨t,(Option.some.inj h).symm,fun e he => he,fun e he _ => he⟩
  | some e =>
    rw [shorterPath,hs,Option.elim_some] at h
    split at h
    · refine ⟨_,(Option.some.inj h).symm,fun e he => List.mem_of_mem_eraseP he,fun e he hne => ?_⟩
      exact (List.mem_eraseP_of_neg (by simp [hne])).mpr he
    · cases h

theorem stored_shorterPath (h : shorterPath t a p d = some t') :
    Stored t' b ↔ b = a ∨ Stored t b := by
  obtain ⟨u,rfl,hsub,hkeep⟩ := shorterPath_some h
  constructor
  · rintro ⟨e,he,hb⟩
    obtain he | he := List.mem_append.mp he
    · exact .inr ⟨e,hsub e he,hb⟩
    · obtain rfl := List.mem_singleton.mp he
      exact .inl (leadsTo_cons.mp hb)
  · intro hb
    by_cases hba : b = a
    · exact ⟨_,List.mem_append_right _ (List.mem_singleton_self _),leadsTo_cons.mpr hba⟩
    · obtain ⟨e,he,heb⟩ := hb.resolve_left hba
      refine ⟨e,List.mem_append_left _ (hkeep e he ?_),heb⟩
      rw [leadsTo,beq_iff_eq] at heb
      rw [leadsTo,beq_eq_false_iff_ne,heb]
      exact fun h => hba (Option.some.inj h)

end Table

theorem visit_cases (go : α → List α → ℕ → Table α → Table α) (a : α) (p : List α) (d : ℕ)
    (t : Table α) (b : α) :
    (b ∈ p ∨ Stored t b) ∧ visit go a p d t b = t ∨
      b ∉ p ∧ ∃ u, shorterPath t b (a::p) (d+1) = some u ∧
        visit go a p d t b = go b (a::p) (d+1) u := by
  by_cases hb : b ∈ p
  · exact .inl ⟨.inl hb,if_pos hb⟩
  · cases hs : shorterPath t b (a::p) (d+1) with
    | none => exact .inl ⟨.inr (shorterPath_none hs),by rw [visit,if_neg hb,hs]; rfl⟩
    | some u => exact .inr ⟨hb,u,rfl,by rw [visit,if_neg hb,hs]; rfl⟩

section Walks
variable {next : α → List α} {o a : α} {p : List α} {d n : ℕ} {t : Table α}

/-- Only walks from `o` to other nodes are stored. -/
def Walks (next : α → List α) (o : α) (t : Table α) : Prop :=
  ∀ e ∈ t, ∃ b a p, e.1 = b::a::p ∧ b ≠ o ∧ Walk next o (b::a::p)

theorem Walks.traverse (hirr : ∀ a, a ∉ next a) (ht : Walks next o t) (hp : Walk next o (a::p)) :
    Walks next o (traverse next n a p d t) := by
  induction n generalizing a p d t with
  | zero => exact ht
  | succ n ih =>
    have hloop (l : List α) (hl : ∀ b ∈ l, b ∈ next a) {t : Table α} (ht : Walks next o t) :
        Walks next o (l.foldl (visit (StoredPaths.traverse next n) a p d) t) := by
      induction l generalizing t with
      | nil => exact ht
      | cons b l ihl =>
        obtain ⟨hb,hl⟩ := List.forall_mem_cons.mp hl
        apply ihl hl
        obtain ⟨-,heq⟩ | ⟨hbp,u,hu,heq⟩ := visit_cases (StoredPaths.traverse next n) a p d t b
        · rwa [heq]
        · rw [heq]
          obtain ⟨v,rfl,hsub,-⟩ := shorterPath_some hu
          refine ih (fun e he => ?_) (hp.next hb)
          obtain he | he := List.mem_append.mp he
          · exact ht e (hsub e he)
          · obtain rfl := List.mem_singleton.mp he
            refine ⟨b,a,p,rfl,?_,hp.next hb⟩
            rintro rfl
            obtain rfl | ho := List.mem_cons.mp hp.origin_mem
            · exact hirr _ hb
            · exact hbp ho
    exact hloop _ (fun b hb => hb) ht

end Walks

section Cover
variable {next : α → List α} {V : Finset α} {a o : α} {p : List α} {d n : ℕ} {t : Table α}

/-- The nodes that may still come after `a` and `p`. -/
def left (V : Finset α) (p : List α) : Finset α := V.filter (· ∉ p)

theorem left_cons_lt {b : α} (hV : b ∈ V) (hb : b ∉ p) : (left V (b::p)).card < (left V p).card := by
  apply Finset.card_lt_card
  refine Finset.ssubset_iff_of_subset ?_ |>.mpr ⟨b,Finset.mem_filter.mpr ⟨hV,hb⟩,fun h => ?_⟩
  · intro c hc
    obtain ⟨hcV,hcp⟩ := Finset.mem_filter.mp hc
    exact Finset.mem_filter.mpr ⟨hcV,fun h => hcp (List.mem_cons_of_mem _ h)⟩
  · exact (Finset.mem_filter.mp h).2 List.mem_cons_self

/-- A node that needs no path or has one. -/
def Known (o : α) (t : Table α) (a : α) : Prop := a = o ∨ Stored t a

/-- What a traversal has done: nothing is lost, and what it has found it has gone on from. -/
structure Covers (next : α → List α) (o : α) (t t' : Table α) : Prop where
  mono : ∀ a, Known o t a → Known o t' a
  closed : ∀ a, Known o t' a → ¬ Known o t a → ∀ b ∈ next a, Known o t' b

theorem Covers.refl : Covers next o t t := ⟨fun _ h => h,fun _ h hn => absurd h hn⟩

theorem Covers.trans {t' t'' : Table α} (h : Covers next o t t') (h' : Covers next o t' t'') :
    Covers next o t t'' := by
  refine ⟨fun a ha => h'.mono a (h.mono a ha),fun a ha hn b hb => ?_⟩
  by_cases ha' : Known o t' a
  · exact h'.mono b (h.closed a ha' hn b hb)
  · exact h'.closed a ha ha' b hb

variable (hV : ∀ a, ∀ b ∈ next a, b ∈ V) (hirr : ∀ a, a ∉ next a)
include hV hirr

theorem left_next {b : α} (hb : b ∈ next a) (hbp : b ∉ p) (hn : (left V (a::p)).card < n+1) :
    (left V (b::a::p)).card < n := by
  have hne : b ∉ a::p := by
    rintro (_ | ⟨_,h⟩)
    · exact hirr _ hb
    · exact hbp h
  have := left_cons_lt (hV a b hb) hne
  omega

theorem covers_traverse (hp : ∀ c ∈ p, Known o t c) (ha : Known o t a)
    (hn : (left V (a::p)).card < n) :
    Covers next o t (traverse next n a p d t) ∧
      ∀ b ∈ next a, Known o (traverse next n a p d t) b := by
  induction n generalizing a p d t with
  | zero => exact absurd hn (Nat.not_lt_zero _)
  | succ n ih =>
    have hloop (l : List α) (hl : ∀ b ∈ l, b ∈ next a) {t : Table α} (hp : ∀ c ∈ p, Known o t c)
        (ha : Known o t a) : Covers next o t (l.foldl (visit (traverse next n) a p d) t) ∧
          ∀ b ∈ l, Known o (l.foldl (visit (traverse next n) a p d) t) b := by
      induction l generalizing t with
      | nil => exact ⟨.refl,fun b hb => absurd hb List.not_mem_nil⟩
      | cons b l ihl =>
        obtain ⟨hb,hl⟩ := List.forall_mem_cons.mp hl
        have hone : Covers next o t (visit (traverse next n) a p d t b) ∧
            Known o (visit (traverse next n) a p d t b) b := by
          obtain ⟨hk,heq⟩ | ⟨hbp,u,hu,heq⟩ := visit_cases (traverse next n) a p d t b
          · rw [heq]
            exact ⟨.refl,hk.elim (hp b) .inr⟩
          · have hknown (c : α) : Known o u c ↔ c = b ∨ Known o t c := by
              rw [Known,stored_shorterPath hu,Known]
              tauto
            have hpu : ∀ c ∈ a::p, Known o u c := List.forall_mem_cons.mpr
              ⟨(hknown a).mpr (.inr ha),fun c hc => (hknown c).mpr (.inr (hp c hc))⟩
            obtain ⟨hcov,hnext⟩ := ih (d := d+1) hpu ((hknown b).mpr (.inl rfl))
              (left_next hV hirr hb hbp hn)
            rw [heq]
            refine ⟨⟨fun c hc => hcov.mono c ((hknown c).mpr (.inr hc)),fun c hc hnc => ?_⟩,
              hcov.mono b ((hknown b).mpr (.inl rfl))⟩
            by_cases hcb : c = b
            · rw [hcb]
              exact hnext
            · exact hcov.closed c hc fun hcu => ((hknown c).mp hcu).elim hcb hnc
        obtain ⟨hcov,hknown⟩ := hone
        obtain ⟨hcov',hknown'⟩ := ihl hl (fun c hc => hcov.mono c (hp c hc)) (hcov.mono a ha)
        exact ⟨hcov.trans hcov',List.forall_mem_cons.mpr ⟨hcov'.mono b hknown,hknown'⟩⟩
    exact hloop _ (fun b hb => hb) hp ha

/-- More than so many nodes there are not: with any larger number the traversal is the same. -/
theorem traverse_succ (hn : (left V (a::p)).card < n) :
    traverse next (n+1) a p d t = traverse next n a p d t := by
  induction n generalizing a p d t with
  | zero => exact absurd hn (Nat.not_lt_zero _)
  | succ n ih =>
    apply List.foldl_ext
    intro t b hb
    by_cases hbp : b ∈ p
    · rw [visit,visit,if_pos hbp,if_pos hbp]
    · rw [visit,visit,if_neg hbp,if_neg hbp]
      congr 1
      funext t
      exact ih (left_next hV hirr hb hbp hn)

/-- Paths are found to the nodes that can be reached, and to no others. -/
theorem stored_traverse_iff (hn : V.card < n) :
    Stored (traverse next n o [] 0 []) a ↔
      a ≠ o ∧ Relation.ReflTransGen (fun a b => b ∈ next a) o a := by
  constructor
  · rintro ⟨e,he,hea⟩
    obtain ⟨b,c,p,heq,hne,hw⟩ := Walks.traverse hirr (fun e he => absurd he List.not_mem_nil) .here e he
    have hb : b = a := by
      rw [leadsTo,heq,beq_iff_eq,List.head?_cons] at hea
      exact Option.some.inj hea
    exact hb ▸ ⟨hne,hw.reaches⟩
  · rintro ⟨hne,hr⟩
    have hleft : (left V [o]).card < n := lt_of_le_of_lt (Finset.card_filter_le _ _) hn
    obtain ⟨hcov,hnext⟩ := covers_traverse (t := []) (d := 0) hV hirr
      (fun c hc => absurd hc List.not_mem_nil) (.inl rfl : Known o [] o) hleft
    have hall : Known o (traverse next n o [] 0 []) a := by
      clear hne
      induction hr with
      | refl => exact .inl rfl
      | @tail b c _ hc ih =>
        by_cases hbo : b = o
        · exact hnext c (hbo ▸ hc)
        · refine hcov.closed b ih ?_ c hc
          rintro (h | ⟨e,he,-⟩)
          · exact hbo h
          · exact List.not_mem_nil he
    exact hall.resolve_left hne

omit hV in
theorem walk_of_stored {e : List α × ℕ} (he : stored (traverse next n o [] 0 []) a = some e) :
    ∃ b p, e.1 = a::b::p ∧ Walk next o (a::b::p) := by
  have ha := List.find?_some he
  obtain ⟨c,b,p,heq,-,hw⟩ := Walks.traverse hirr (fun e he => absurd he List.not_mem_nil) .here e
    (List.mem_of_find?_eq_some he)
  rw [leadsTo,heq,beq_iff_eq,List.head?_cons] at ha
  obtain rfl := Option.some.inj ha
  exact ⟨b,p,heq,hw⟩

end Cover

section Distance
variable {next : α → List α} {t t' : Table α} {a b o : α} {p : List α} {d n : ℕ}

/-- The length of the path that is stored to a node. -/
def distance (o : α) (t : Table α) (a : α) : ℕ∞ :=
  if a = o then 0 else ((stored t a).map Prod.snd).elim ⊤ (↑)

theorem distance_self : distance o t o = 0 := if_pos rfl

theorem distance_of_stored {e : List α × ℕ} (hne : a ≠ o) (h : stored t a = some e) :
    distance o t a = e.2 := by
  rw [distance,if_neg hne,h]
  rfl

theorem distance_of_none (hne : a ≠ o) (h : stored t a = none) : distance o t a = ⊤ := by
  rw [distance,if_neg hne,h]
  rfl

/-- One path is stored to a node at most. -/
def OneEach (t : Table α) : Prop := t.Pairwise fun e e' => e.1.head? ≠ e'.1.head?

theorem stored_of_mem (ht : OneEach t) {e : List α × ℕ} (he : e ∈ t) (ha : leadsTo a e = true) :
    stored t a = some e := by
  induction ht with
  | nil => cases he
  | @cons e' t hne _ ih =>
    rw [stored,List.find?_cons]
    obtain rfl | he := List.mem_cons.mp he
    · rw [ha]
    · have hother : leadsTo a e' = false := by
        rw [leadsTo,beq_iff_eq] at ha
        rw [leadsTo,beq_eq_false_iff_ne,← ha]
        exact hne e he
      rw [hother]
      exact ih he

theorem OneEach.notMem_eraseP (ht : OneEach t) :
    ∀ e ∈ t.eraseP (leadsTo a), leadsTo a e = false := by
  induction ht with
  | nil => exact List.forall_mem_nil _
  | @cons e t hne _ ih =>
    cases ha : leadsTo a e with
    | true =>
      rw [List.eraseP_cons_of_pos ha]
      intro e' he'
      rw [leadsTo,beq_iff_eq] at ha
      rw [leadsTo,beq_eq_false_iff_ne,← ha]
      exact (hne e' he').symm
    | false =>
      rw [List.eraseP_cons_of_neg (by simp [ha])]
      exact List.forall_mem_cons.mpr ⟨ha,ih⟩

theorem OneEach.snoc (ht : OneEach t) (ha : ∀ e ∈ t, leadsTo a e = false) :
    OneEach (t++[(a::p,d)]) := by
  refine List.pairwise_append.mpr ⟨ht,List.pairwise_singleton _ _,fun e he e' he' heq => ?_⟩
  obtain rfl := List.mem_singleton.mp he'
  have hlead : leadsTo a e = true := by
    rw [leadsTo,heq,beq_iff_eq]
    rfl
  exact Bool.false_ne_true ((ha e he).symm.trans hlead)

theorem OneEach.shorterPath (ht : OneEach t) (h : shorterPath t a p d = some t') : OneEach t' := by
  cases hs : stored t a with
  | none =>
    rw [StoredPaths.shorterPath,hs] at h
    obtain rfl := Option.some.inj h
    exact ht.snoc fun e he => Bool.eq_false_of_not_eq_true (List.find?_eq_none.mp hs e he)
  | some e =>
    rw [StoredPaths.shorterPath,hs,Option.elim_some] at h
    split at h
    · obtain rfl := Option.some.inj h
      exact OneEach.snoc (List.Pairwise.sublist List.eraseP_sublist ht) ht.notMem_eraseP
    · cases h

/-- A path that comes in is the shortest one so far. -/
theorem distance_shorterPath (ht : OneEach t) (hne : a ≠ o) (h : shorterPath t a p d = some t') :
    distance o t' = Function.update (distance o t) a d ∧ (d : ℕ∞) ≤ distance o t a := by
  obtain ⟨u,rfl,hsub,hkeep⟩ := shorterPath_some h
  have ht' := ht.shorterPath h
  constructor
  · funext b
    by_cases hba : b = a
    · subst hba
      have hlast : stored (u++[(b::p,d)]) b = some (b::p,d) :=
        stored_of_mem ht' (List.mem_append_right _ (List.mem_singleton_self _)) (leadsTo_cons.mpr rfl)
      rw [Function.update_self,distance_of_stored hne hlast]
    · rw [Function.update_of_ne hba]
      by_cases hbo : b = o
      · rw [hbo,distance_self,distance_self]
      · cases hs : stored t b with
        | some e =>
          have hb : leadsTo b e = true := List.find?_some hs
          have ha : leadsTo a e = false := by
            rw [leadsTo,beq_iff_eq] at hb
            rw [leadsTo,beq_eq_false_iff_ne,hb]
            exact fun heq => hba (Option.some.inj heq)
          have hmem := List.mem_append_left [(a::p,d)] (hkeep e (List.mem_of_find?_eq_some hs) ha)
          rw [distance_of_stored hbo hs,distance_of_stored hbo (stored_of_mem ht' hmem hb)]
        | none =>
          have hnone : stored (u++[(a::p,d)]) b = none := by
            refine List.find?_eq_none.mpr fun e he hb => ?_
            obtain he | he := List.mem_append.mp he
            · exact List.find?_eq_none.mp hs e (hsub e he) hb
            · obtain rfl := List.mem_singleton.mp he
              exact hba (leadsTo_cons.mp hb)
          rw [distance_of_none hbo hs,distance_of_none hbo hnone]
  · cases hs : stored t a with
    | none =>
      rw [distance_of_none hne hs]
      exact le_top
    | some e =>
      rw [shorterPath,hs,Option.elim_some] at h
      split at h
      · rename_i hlt
        rw [distance_of_stored hne hs]
        exact_mod_cast hlt.le
      · cases h

/-- A path that does not come in is no shorter than the one stored. -/
theorem distance_le_of_none (hne : a ≠ o) (h : shorterPath t a p d = none) : distance o t a ≤ d := by
  cases hs : stored t a with
  | none =>
    rw [shorterPath,hs] at h
    cases h
  | some e =>
    rw [shorterPath,hs,Option.elim_some] at h
    split at h
    · cases h
    · rename_i hlt
      rw [distance_of_stored hne hs]
      exact_mod_cast not_lt.mp hlt

end Distance

section Shortest
variable {next : α → List α} {V : Finset α} {t : Table α} {a o : α} {p : List α} {d n : ℕ}

/-- What a traversal has done to the distances: none is greater than before, and from where one is
smaller all steps have been taken into account. -/
structure Relaxes (next : α → List α) (o : α) (t t' : Table α) : Prop where
  oneEach : OneEach t'
  le : ∀ a, distance o t' a ≤ distance o t a
  relaxed : ∀ a, distance o t' a < distance o t a →
    ∀ b ∈ next a, distance o t' b ≤ distance o t' a+1

theorem Relaxes.refl (ht : OneEach t) : Relaxes next o t t :=
  ⟨ht,fun _ => le_rfl,fun _ h => absurd h (lt_irrefl _)⟩

theorem Relaxes.trans {t' t'' : Table α} (h : Relaxes next o t t') (h' : Relaxes next o t' t'') :
    Relaxes next o t t'' := by
  refine ⟨h'.oneEach,fun a => (h'.le a).trans (h.le a),fun a ha b hb => ?_⟩
  obtain hlt | heq := (h'.le a).lt_or_eq
  · exact h'.relaxed a hlt b hb
  · rw [heq] at ha ⊢
    exact (h'.le b).trans (h.relaxed a ha b hb)

/-- A step to a node that is nearer now, and what has been gone on to from there. -/
theorem Relaxes.step {t u t' : Table α} {b : α} (ht : OneEach t) (hne : b ≠ o)
    (hu : shorterPath t b p d = some u) (h : Relaxes next o u t')
    (hb : ∀ c ∈ next b, distance o t' c ≤ (d : ℕ∞)+1) : Relaxes next o t t' := by
  obtain ⟨hdist,hle⟩ := distance_shorterPath ht hne hu
  have hut (a : α) : distance o u a ≤ distance o t a := by
    rw [hdist]
    by_cases hab : a = b
    · subst hab
      rwa [Function.update_self]
    · rw [Function.update_of_ne hab]
  refine ⟨h.oneEach,fun a => (h.le a).trans (hut a),fun a ha c hc => ?_⟩
  obtain hlt | heq := (h.le a).lt_or_eq
  · exact h.relaxed a hlt c hc
  · rw [heq] at ha ⊢
    by_cases hab : a = b
    · subst hab
      rw [hdist,Function.update_self]
      exact hb c hc
    · rw [hdist,Function.update_of_ne hab] at ha
      exact absurd ha (lt_irrefl _)

variable (hV : ∀ a, ∀ b ∈ next a, b ∈ V) (hirr : ∀ a, a ∉ next a)
include hV hirr

theorem relaxes_traverse (ht : OneEach t) (ho : o ∈ a::p) (hp : ∀ c ∈ a::p, distance o t c ≤ d)
    (hn : (left V (a::p)).card < n) : Relaxes next o t (traverse next n a p d t) ∧
      ∀ b ∈ next a, distance o (traverse next n a p d t) b ≤ (d : ℕ∞)+1 := by
  induction n generalizing a p d t with
  | zero => exact absurd hn (Nat.not_lt_zero _)
  | succ n ih =>
    have hloop (l : List α) (hl : ∀ b ∈ l, b ∈ next a) {t : Table α} (ht : OneEach t)
        (hp : ∀ c ∈ a::p, distance o t c ≤ d) :
        Relaxes next o t (l.foldl (visit (traverse next n) a p d) t) ∧
          ∀ b ∈ l, distance o (l.foldl (visit (traverse next n) a p d) t) b ≤ (d : ℕ∞)+1 := by
      induction l generalizing t with
      | nil => exact ⟨.refl ht,List.forall_mem_nil _⟩
      | cons b l ihl =>
        obtain ⟨hb,hl⟩ := List.forall_mem_cons.mp hl
        have hone : Relaxes next o t (visit (traverse next n) a p d t b) ∧
            distance o (visit (traverse next n) a p d t b) b ≤ (d : ℕ∞)+1 := by
          by_cases hbp : b ∈ p
          · rw [visit,if_pos hbp]
            exact ⟨.refl ht,(hp b (List.mem_cons_of_mem _ hbp)).trans (self_le_add_right _ _)⟩
          · have hne : b ≠ o := by
              rintro rfl
              obtain rfl | ho := List.mem_cons.mp ho
              · exact hirr _ hb
              · exact hbp ho
            rw [visit,if_neg hbp]
            cases hu : shorterPath t b (a::p) (d+1) with
            | none => exact ⟨.refl ht,distance_le_of_none hne hu⟩
            | some u =>
              obtain ⟨hdist,hle⟩ := distance_shorterPath ht hne hu
              have hpu : ∀ c ∈ b::a::p, distance o u c ≤ (d+1 : ℕ) := by
                intro c hc
                rw [hdist]
                by_cases hcb : c = b
                · rw [hcb,Function.update_self]
                · rw [Function.update_of_ne hcb]
                  have hd : ((d : ℕ) : ℕ∞) ≤ (d+1 : ℕ) := by exact_mod_cast d.le_succ
                  exact (hp c ((List.mem_cons.mp hc).resolve_left hcb)).trans hd
              obtain ⟨hrel,hnext⟩ := ih (ht.shorterPath hu) (List.mem_cons_of_mem b ho) hpu
                (left_next hV hirr hb hbp hn)
              refine ⟨.step ht hne hu hrel hnext,?_⟩
              exact (hrel.le b).trans (hpu b List.mem_cons_self)
        obtain ⟨hrel,hd⟩ := hone
        obtain ⟨hrel',hd'⟩ := ihl hl hrel.oneEach fun c hc => (hrel.le c).trans (hp c hc)
        exact ⟨hrel.trans hrel',List.forall_mem_cons.mpr ⟨(hrel'.le b).trans hd,hd'⟩⟩
    exact hloop _ (fun b hb => hb) ht hp

/-- No walk is shorter than the path that is stored to its end. -/
theorem distance_le_length (hn : V.card < n) {q : List α} (hq : Walk next o (a::q)) :
    distance o (traverse next n o [] 0 []) a ≤ q.length := by
  have hleft : (left V [o]).card < n := lt_of_le_of_lt (Finset.card_filter_le _ _) hn
  obtain ⟨hrel,hnext⟩ := relaxes_traverse (t := []) (d := 0) hV hirr List.Pairwise.nil
    (List.mem_singleton_self o) (fun c hc => by
      rw [List.mem_singleton.mp hc,distance_self]
      exact zero_le) hleft
  generalize hr : a::q = r at hq
  induction hq generalizing a q with
  | here =>
    obtain ⟨rfl,rfl⟩ := List.cons.inj hr
    rw [distance_self]
    exact zero_le
  | @next b c r hw hc ih =>
    obtain ⟨rfl,rfl⟩ := List.cons.inj hr
    have hstep : distance o (traverse next n o [] 0 []) a ≤
        distance o (traverse next n o [] 0 []) b+1 := by
      by_cases hbo : b = o
      · rw [hbo] at hc ⊢
        rw [distance_self]
        exact hnext a hc
      · cases hs : stored (traverse next n o [] 0 []) b with
        | none =>
          rw [distance_of_none hbo hs]
          exact le_top
        | some e =>
          have hlt : distance o (traverse next n o [] 0 []) b < distance o [] b := by
            rw [distance_of_stored hbo hs,distance_of_none hbo rfl]
            exact ENat.natCast_lt_top _
          exact hrel.relaxed b hlt a hc
    refine hstep.trans ?_
    rw [List.length_cons,Nat.cast_add,Nat.cast_one]
    exact add_le_add_left (ih rfl) 1

omit hV hirr in
theorem length_traverse (ht : ∀ e ∈ t, e.1.length = e.2+1) (hp : p.length = d) :
    ∀ e ∈ traverse next n a p d t, e.1.length = e.2+1 := by
  induction n generalizing a p d t with
  | zero => exact ht
  | succ n ih =>
    rw [traverse]
    generalize next a = l
    induction l generalizing t with
    | nil => exact ht
    | cons b l ihl =>
      apply ihl
      obtain ⟨-,heq⟩ | ⟨-,u,hu,heq⟩ := visit_cases (traverse next n) a p d t b
      · rwa [heq]
      · rw [heq]
        obtain ⟨v,rfl,hsub,-⟩ := shorterPath_some hu
        refine ih (fun e he => ?_) (congrArg (·+1) hp)
        obtain he | he := List.mem_append.mp he
        · exact ht e (hsub e he)
        · obtain rfl := List.mem_singleton.mp he
          rw [← hp]
          rfl

/-- The path that is stored to a node is a shortest walk. -/
theorem shortest_of_stored (hn : V.card < n) {e : List α × ℕ}
    (he : stored (traverse next n o [] 0 []) a = some e) {q : List α} (hq : Walk next o (a::q)) :
    e.1.length ≤ (a::q).length := by
  have hlen : e.1.length = e.2+1 :=
    length_traverse (List.forall_mem_nil _) rfl e (List.mem_of_find?_eq_some he)
  have hne : a ≠ o :=
    ((stored_traverse_iff hV hirr hn).mp (stored_isSome.mp (Option.isSome_of_eq_some he))).1
  have hle := distance_le_length hV hirr hn hq
  rw [distance_of_stored hne he] at hle
  rw [hlen,List.length_cons]
  exact Nat.add_le_add_right (by exact_mod_cast hle) 1

end Shortest
end PucRio.StoredPaths
