import PucRio.Dungeon.Targets

/-! When the agent decides: exactly when the cell that it means to go to can be reached, since a goal for
a path succeeds without one. -/
namespace PucRio.Dungeon

namespace State

/-- The steps of a path. -/
def Reaches (s : State) : Cell → Cell → Prop := Relation.ReflTransGen fun a b => b ∈ s.path a

/-- A clause before those that call again acts. -/
def Fires (s : State) : Prop :=
  (∃ p ∈ s.curPath, p ≠ []) ∨ s.cell = s.startPoint ∧ s.exiting = true

/-- One call of `getNextMove` by another. -/
def Calls (d : ℤ) (s t : State) : Prop := s.choose d = .retry t ∨ s.choose d = .follow t

/-- The next move is found, and after each goal for a path an earlier clause acts. -/
def Decides (d : ℤ) (s : State) : Prop :=
  (∃ n r, s.getNextMove d n = some r) ∧
    ∀ t u, Relation.ReflTransGen (Calls d) s t → t.choose d = .follow u → u.Fires

end State

section Go
variable {s : State} {a b c : Cell}

theorem mem_path : b ∈ s.path a →
    b ∈ s.visited ∧ b ∈ s.adjacent a := by
  intro hb
  rw [State.path] at hb
  split at hb
  · obtain ⟨hb,h⟩ := List.mem_filter.mp hb
    exact ⟨hb,(of_decide_eq_true h).1⟩
  · cases hb

theorem self_notMem_path (a : Cell) : a ∉ s.path a := by
  intro ha
  have hn := (mem_adjacent.mp (mem_path ha).2).1
  obtain ⟨x,y⟩ := a
  simp [neighbours] at hn
  omega

theorem go_iff : StoredPaths.Stored
    (StoredPaths.traverse s.path (s.visited.length+1) a [] 0 []) c ↔ c ≠ a ∧ s.Reaches a c :=
  StoredPaths.stored_traverse_iff (V := s.visited.toFinset)
    (fun _ _ hb => List.mem_toFinset.mpr (mem_path hb).1) self_notMem_path
    (Nat.lt_succ_of_le (List.toFinset_card_le _))

/-- The number of cells does not bound the search: with any larger one it finds the same paths. -/
theorem traverse_path_of_lt {n : ℕ} (hn : s.visited.length < n) :
    StoredPaths.traverse s.path n a [] 0 [] =
      StoredPaths.traverse s.path (s.visited.length+1) a [] 0 [] := by
  induction n, Nat.succ_le_of_lt hn using Nat.le_induction with
  | base => rfl
  | succ n hle ih =>
    have hleft : (StoredPaths.left s.visited.toFinset [a]).card < n :=
      ((Finset.card_filter_le _ _).trans (List.toFinset_card_le _)).trans_lt hle
    rw [StoredPaths.traverse_succ (V := s.visited.toFinset)
      (fun _ _ hb => List.mem_toFinset.mpr (mem_path hb).1) self_notMem_path hleft,ih hle]

/-- A path is kept to another cell that can be reached. -/
theorem go_of_reaches (hne : c ≠ a) (h : s.Reaches a c) :
    ∃ p, p ≠ [] ∧ s.go a c = { s with curPath := s.curPath++[p] } := by
  obtain ⟨e,he⟩ := Option.isSome_iff_exists.mp (StoredPaths.stored_isSome.mpr (go_iff.mpr ⟨hne,h⟩))
  obtain ⟨b,p,heq,-⟩ := StoredPaths.walk_of_stored self_notMem_path he
  refine ⟨e.1.reverse.tail,fun hnil => ?_,?_⟩
  · have hlen := congrArg List.length hnil
    rw [heq,List.length_tail,List.length_reverse] at hlen
    simp at hlen
  · rw [State.go,he]
    rfl

/-- Else the goal succeeds all the same. -/
theorem go_of_not_reaches (h : ¬ (c ≠ a ∧ s.Reaches a c)) : s.go a c = s := by
  rw [← go_iff,← StoredPaths.stored_isSome,Option.not_isSome_iff_eq_none] at h
  rw [State.go,h]
  rfl

end Go

section Route
variable {s : State} {a c : Cell} {p q : List Cell}

/-- A way from `a`, which is left out, to `c`. -/
structure State.IsRoute (s : State) (a c : Cell) (p : List Cell) : Prop where
  steps : (a::p).IsChain fun b b' => b' ∈ s.path b
  ends : (a::p).getLast? = some c

theorem isRoute_iff : s.IsRoute a c p ↔ ∃ r, (a::p).reverse = c::r ∧
    StoredPaths.Walk s.path a (c::r) := by
  have hlast : (a::p).reverse.getLast? = some a := by
    rw [List.getLast?_reverse]
    rfl
  have hwalk : StoredPaths.Walk s.path a (a::p).reverse ↔
      (a::p).IsChain fun b b' => b' ∈ s.path b := by
    rw [StoredPaths.walk_iff,List.isChain_reverse]
    exact and_iff_right hlast
  have hhead : (a::p).getLast? = some c ↔ ∃ r, (a::p).reverse = c::r := by
    rw [← List.head?_reverse,List.head?_eq_some_iff]
  constructor
  · intro h
    obtain ⟨r,hr⟩ := hhead.mp h.ends
    exact ⟨r,hr,hr ▸ hwalk.mpr h.steps⟩
  · rintro ⟨r,hr,hw⟩
    rw [← hr] at hw
    exact ⟨hwalk.mp hw,hhead.mpr ⟨r,hr⟩⟩

theorem State.IsRoute.reaches (h : s.IsRoute a c p) : s.Reaches a c := by
  obtain ⟨r,-,hw⟩ := isRoute_iff.mp h
  exact hw.reaches

theorem State.IsRoute.visited (h : s.IsRoute a c p) : ∀ b ∈ p, b ∈ s.visited := by
  have hsteps := h.steps
  clear h
  induction p generalizing a with
  | nil => exact List.forall_mem_nil _
  | cons b p ih =>
    rw [List.isChain_cons_cons] at hsteps
    exact List.forall_mem_cons.mpr ⟨(mem_path hsteps.1).1,ih hsteps.2⟩

/-- A route is kept, and no other one is shorter. -/
theorem go_spec (hne : c ≠ a) (h : s.Reaches a c) : ∃ p, s.IsRoute a c p ∧
    (∀ q, s.IsRoute a c q → p.length ≤ q.length) ∧
    s.go a c = { s with curPath := s.curPath++[p] } := by
  obtain ⟨e,he⟩ := Option.isSome_iff_exists.mp (StoredPaths.stored_isSome.mpr (go_iff.mpr ⟨hne,h⟩))
  obtain ⟨b,p,heq,hw⟩ := StoredPaths.walk_of_stored self_notMem_path he
  have hreverse : e.1.reverse = a::e.1.reverse.tail := by
    refine (List.cons_head?_tail ?_).symm
    rw [List.head?_reverse,heq]
    exact (StoredPaths.walk_iff.mp hw).1
  refine ⟨e.1.reverse.tail,isRoute_iff.mpr ⟨b::p,?_,hw⟩,fun q hq => ?_,?_⟩
  · rw [← hreverse,List.reverse_reverse,heq]
  · obtain ⟨r,hr,hwalk⟩ := isRoute_iff.mp hq
    have hle := StoredPaths.shortest_of_stored (V := s.visited.toFinset)
      (fun _ _ hb => List.mem_toFinset.mpr (mem_path hb).1) self_notMem_path
      (Nat.lt_succ_of_le (List.toFinset_card_le _)) he hwalk
    rw [← hr,List.length_reverse,List.length_cons] at hle
    rw [List.length_tail,List.length_reverse]
    omega
  · rw [State.go,he]
    rfl

/-- The goal for a path keeps a shortest route over visited cells, if there is one to another cell,
and else changes nothing. -/
theorem go_shortest (s : State) (a c : Cell) :
    (∃ p, s.IsRoute a c p ∧ (∀ q, s.IsRoute a c q → p.length ≤ q.length) ∧
      c ≠ a ∧ s.go a c = { s with curPath := s.curPath++[p] }) ∨
    (c = a ∨ ∀ q, ¬ s.IsRoute a c q) ∧ s.go a c = s := by
  by_cases h : c ≠ a ∧ s.Reaches a c
  · obtain ⟨p,hp,hmin,hgo⟩ := go_spec h.1 h.2
    exact .inl ⟨p,hp,hmin,h.1,hgo⟩
  · refine .inr ⟨?_,go_of_not_reaches h⟩
    rw [not_and_or,not_not] at h
    exact h.imp id fun hn q hq => hn hq.reaches

end Route

section Acts
variable {s t : State} {d : ℤ}

theorem choose_of_early (h : (s.cell = s.startPoint ∧ s.exiting = true) ∨ s.curEnergy < 1 ∨
    s.cell ∈ s.goldCell) : ∃ a t, s.choose d = .act a t := by
  rw [State.choose,State.getNextMove_exit]
  split_ifs with h1
  · exact ⟨_,_,rfl⟩
  · rw [State.getNextMove_gameOver]
    split_ifs with h2
    · exact ⟨_,_,rfl⟩
    · rw [State.getNextMove_pickGold,if_pos ((h.resolve_left h1).resolve_left h2)]
      exact ⟨_,_,rfl⟩

/-- The agent walks along one of the paths, unless the cell in front is not walkable. -/
theorem walkAlong_cases (ps : List (List Cell)) : (∃ t, s.walkAlong ps = .ok t) ∨
    ∃ q, s.walkAlong ps = .error { s with curPath := q } ∧
      ((∃ p ∈ ps, p.head? = some s.agent_willWalkTo) → ¬ s.isWalkable s.agent_willWalkTo) := by
  induction ps generalizing s with
  | nil =>
    refine .inr ⟨s.curPath,rfl,?_⟩
    rintro ⟨p,hp,-⟩
    cases hp
  | cons p ps ih =>
    rw [State.walkAlong]
    split
    · cases hw : ({ s with curPath := [p.tail] } : State).agent_walkTo s.agent_willWalkTo with
      | some t => exact .inl ⟨t,rfl⟩
      | none =>
        have hn : ¬ s.isWalkable s.agent_willWalkTo := by
          intro h
          have hsome := agent_walkTo_isSome (s := { s with curPath := [p.tail] }).mpr h
          rw [hw] at hsome
          cases hsome
        obtain ⟨t,ht⟩ | ⟨q,hq,-⟩ := ih (s := { s with curPath := [p.tail] })
        · exact .inl ⟨t,ht⟩
        · exact .inr ⟨q,hq,fun _ => hn⟩
    · rename_i hp
      obtain ⟨t,ht⟩ | ⟨q,hq,hn⟩ := ih (s := s)
      · exact .inl ⟨t,ht⟩
      · refine .inr ⟨q,hq,?_⟩
        rintro ⟨p',hp',hhead⟩
        obtain rfl | hp' := List.mem_cons.mp hp'
        · exact absurd hhead hp
        · exact hn ⟨p',hp',hhead⟩

theorem choose_of_path (hdrop : [] ∉ s.curPath) (hpath : s.curPath ≠ []) :
    ∃ a t, s.choose d = .act a t := by
  by_cases he : (s.cell = s.startPoint ∧ s.exiting = true) ∨ s.curEnergy < 1 ∨ s.cell ∈ s.goldCell
  · exact choose_of_early he
  · obtain ⟨h1,h2,h3⟩ : ¬ (s.cell = s.startPoint ∧ s.exiting = true) ∧ ¬ s.curEnergy < 1 ∧
        s.cell ∉ s.goldCell := by
      rwa [not_or,not_or] at he
    rw [State.choose,State.getNextMove_exit,if_neg h1,State.getNextMove_gameOver,if_neg h2,
      State.getNextMove_pickGold,if_neg h3,State.getNextMove_dropPath,if_neg hdrop,
      State.getNextMove_turnToPath]
    split_ifs with hturn
    · exact ⟨_,_,rfl⟩
    · change ∃ a t, State.walked d (s.walkAlong s.curPath) = .act a t
      obtain ⟨t,ht⟩ | ⟨q,hq,hn⟩ := walkAlong_cases (s := s) s.curPath
      · rw [ht]
        exact ⟨_,_,rfl⟩
      · obtain ⟨p,hp⟩ := List.exists_mem_of_ne_nil _ hpath
        have hwall : ¬ s.isWalkable s.agent_willWalkTo := by
          refine hn ⟨p,hp,?_⟩
          by_contra hhead
          exact hturn ⟨p,hp,fun h => hdrop (h ▸ hp),hhead⟩
        have hturn' : ({ s with curPath := q } : State).getNextMove_turnFromWall =
            some (.act .rotate ({ s with curPath := q } : State).agent_rotate) := if_pos hwall
        rw [hq]
        change ∃ a t, ({ s with curPath := q } : State).chooseFree d = .act a t
        rw [State.chooseFree,hturn']
        exact ⟨_,_,rfl⟩

theorem choose_of_drop (he : ¬ ((s.cell = s.startPoint ∧ s.exiting = true) ∨ s.curEnergy < 1 ∨
    s.cell ∈ s.goldCell)) (hdrop : [] ∈ s.curPath) :
    s.choose d = .retry { s with curPath := s.curPath.erase [] } := by
  obtain ⟨h1,h2,h3⟩ : ¬ (s.cell = s.startPoint ∧ s.exiting = true) ∧ ¬ s.curEnergy < 1 ∧
      s.cell ∉ s.goldCell := by
    rwa [not_or,not_or] at he
  rw [State.choose,State.getNextMove_exit,if_neg h1,State.getNextMove_gameOver,if_neg h2,
    State.getNextMove_pickGold,if_neg h3,State.getNextMove_dropPath,if_pos hdrop]
  rfl

end Acts

section Decides
variable {s t : State} {d : ℤ}

theorem decides_of_act {a : Action} (h : s.choose d = .act a t) : s.Decides d := by
  refine ⟨⟨1,(a,t),?_⟩,fun u v hu hv => ?_⟩
  · rw [State.getNextMove,h]
  · obtain rfl | ⟨w,hw,-⟩ := Relation.ReflTransGen.cases_head hu
    · rw [h] at hv
      cases hv
    · rw [State.Calls,h] at hw
      obtain hw | hw := hw <;> cases hw

theorem getNextMove_of_calls (h : s.Calls d t) (n : ℕ) :
    s.getNextMove d (n+1) = t.getNextMove d n := by
  rw [State.getNextMove]
  obtain h | h := h <;> rw [h]

theorem terminates_of_calls (h : s.Calls d t) :
    (∃ n r, s.getNextMove d n = some r) ↔ ∃ n r, t.getNextMove d n = some r := by
  constructor
  · rintro ⟨_ | n,r,hr⟩
    · cases hr
    · exact ⟨n,r,getNextMove_of_calls h n ▸ hr⟩
  · rintro ⟨n,r,hr⟩
    exact ⟨n+1,r,(getNextMove_of_calls h n).trans hr⟩

theorem calls_unique {u : State} (h : s.Calls d t) (h' : s.Calls d u) : t = u := by
  obtain h | h := h <;> obtain h' | h' := h'
  · exact Choice.retry.inj (h.symm.trans h')
  · cases h.symm.trans h'
  · cases h.symm.trans h'
  · exact Choice.follow.inj (h.symm.trans h')

theorem decides_of_retry (h : s.choose d = .retry t) : s.Decides d ↔ t.Decides d := by
  have hc : s.Calls d t := .inl h
  refine and_congr (terminates_of_calls hc) ⟨fun hall u v hu => hall u v (hu.head hc),
    fun hall u v hu hv => ?_⟩
  obtain rfl | ⟨w,hw,hu⟩ := Relation.ReflTransGen.cases_head hu
  · cases h.symm.trans hv
  · exact hall u v (calls_unique hc hw ▸ hu) hv

theorem decides_of_follow (h : s.choose d = .follow t) : s.Decides d ↔ t.Fires ∧ t.Decides d := by
  have hc : s.Calls d t := .inr h
  constructor
  · rintro ⟨hterm,hall⟩
    exact ⟨hall s t .refl h,(terminates_of_calls hc).mp hterm,fun u v hu => hall u v (hu.head hc)⟩
  · rintro ⟨hf,hterm,hall⟩
    refine ⟨(terminates_of_calls hc).mpr hterm,fun u v hu hv => ?_⟩
    obtain rfl | ⟨w,hw,hu⟩ := Relation.ReflTransGen.cases_head hu
    · exact Choice.follow.inj (h.symm.trans hv) ▸ hf
    · exact hall u v (calls_unique hc hw ▸ hu) hv

end Decides

section Leaving
variable {s : State} {d : ℤ}

/-- To be leaving matters only at the start point. -/
theorem target_leaving (hne : s.startPoint ≠ s.cell) :
    ({ s with exiting := true } : State).target = s.target := by
  have hbusy : ({ s with exiting := true } : State).Busy ↔ s.Busy :=
    or_congr ⟨fun h => absurd h.1.symm hne,fun h => absurd h.1.symm hne⟩ Iff.rfl
  rw [State.target,State.target,State.aims,State.aims,decide_eq_decide.mpr hbusy]
  rfl

theorem Free.leaving (h : Free s) (hne : s.startPoint ≠ s.cell) :
    Free { s with exiting := true } :=
  ⟨fun h => hne h.1.symm,h.energy,h.gold,h.curPath⟩

theorem Sound.leaving (hs : Sound s) : Sound { s with exiting := true } := by
  have hl : Learn s { s with exiting := true } := by
    refine .other rfl rfl rfl fun h => ?_
    cases h <;> rfl
  exact hl.sound hs

/-- Where the cell to go to cannot be reached, the agent asks for the next move for ever. -/
theorem getNextMove_stranded (hs : Sound s) (hf : Free s) {c : Cell} (hc : s.target = some c)
    (hr : ¬ s.Reaches s.cell c) (n : ℕ) : s.getNextMove d n = none := by
  induction n generalizing s with
  | zero => rfl
  | succ n ih =>
    have ha := hf.answers (d := d) hs
    rw [hc] at ha
    obtain ⟨u,hu,hcase⟩ := ha
    have hne : c ≠ s.cell := fun h => hr (h ▸ .refl)
    obtain ⟨rfl,-⟩ | ⟨rfl,rfl⟩ := hcase
    · rw [go_of_not_reaches fun h => hr h.2] at hu
      rw [getNextMove_of_calls (.inr hu)]
      exact ih hs hf hc hr
    · rw [go_of_not_reaches (s := { s with exiting := true }) fun h => hr h.2] at hu
      rw [getNextMove_of_calls (.inr hu)]
      exact ih hs.leaving (hf.leaving hne) ((target_leaving hne).trans hc) hr

end Leaving

section Exactly
variable {s : State} {d : ℤ}

theorem decides_of_fires (hf : s.Fires) (hdrop : [] ∉ s.curPath) : s.Decides d := by
  obtain ⟨p,hp,-⟩ | he := hf
  · obtain ⟨a,t,h⟩ := choose_of_path (d := d) hdrop (List.ne_nil_of_mem hp)
    exact decides_of_act h
  · obtain ⟨a,t,h⟩ := choose_of_early (d := d) (.inl he)
    exact decides_of_act h

theorem Free.chooses_iff (hf : Free s) (hs : Sound s) :
    s.Decides d ↔ ∀ c, s.target = some c → s.Reaches s.cell c := by
  have ha := hf.answers (d := d) hs
  cases hc : s.target with
  | none =>
    rw [hc] at ha
    obtain ⟨a,t,h⟩ := ha
    exact ⟨fun _ c hc => (Option.some_ne_none c hc.symm).elim,fun _ => decides_of_act h⟩
  | some c =>
    rw [hc] at ha
    obtain ⟨u,hu,hcase⟩ := ha
    have hpath : u.curPath = [] := by
      obtain ⟨rfl,-⟩ | ⟨rfl,-⟩ := hcase
      · exact hf.curPath
      · exact hf.curPath
    have hreach : u.Reaches = s.Reaches := by
      obtain ⟨rfl,-⟩ | ⟨rfl,-⟩ := hcase <;> rfl
    constructor
    · rintro ⟨⟨n,r,hr⟩,-⟩ c' hc'
      obtain rfl := Option.some.inj hc'
      by_contra hn
      rw [getNextMove_stranded hs hf hc hn] at hr
      cases hr
    · intro hall
      have hr := hall c rfl
      rw [decides_of_follow hu]
      by_cases hne : c = s.cell
      · obtain ⟨-,h⟩ | ⟨rfl,hstart⟩ := hcase
        · exact absurd hne h
        · have hgo : ({ s with exiting := true } : State).go s.cell c = { s with exiting := true } :=
            go_of_not_reaches fun h => h.1 hne
          have hfires : ({ s with exiting := true } : State).Fires :=
            .inr ⟨hne.symm.trans hstart,rfl⟩
          rw [hgo]
          refine ⟨hfires,decides_of_fires hfires ?_⟩
          rw [hpath]
          exact List.not_mem_nil
      · obtain ⟨p,hp,hgo⟩ := go_of_reaches (s := u) hne (hreach ▸ hr)
        rw [hgo,hpath]
        have hfires : ({ u with curPath := [p] } : State).Fires :=
          .inl ⟨p,List.mem_singleton_self p,hp⟩
        refine ⟨hfires,decides_of_fires hfires fun h => hp ?_⟩
        exact (List.mem_singleton.mp h).symm

theorem target_dropPath :
    ({ s with curPath := s.curPath.erase [] } : State).target = s.target := by
  have hpath : (∃ p ∈ s.curPath.erase [], p ≠ []) ↔ ∃ p ∈ s.curPath, p ≠ [] := by
    constructor
    · rintro ⟨p,hp,hne⟩
      exact ⟨p,List.mem_of_mem_erase hp,hne⟩
    · rintro ⟨p,hp,hne⟩
      exact ⟨p,(List.mem_erase_of_ne hne).mpr hp,hne⟩
  have hbusy : ({ s with curPath := s.curPath.erase [] } : State).Busy ↔ s.Busy :=
    or_congr Iff.rfl (or_congr Iff.rfl (or_congr Iff.rfl (or_congr hpath Iff.rfl)))
  rw [State.target,State.target,State.aims,State.aims,decide_eq_decide.mpr hbusy]
  rfl

theorem target_of_busy (h : s.Busy) : s.target = none := by
  rw [State.target,State.aims,firstAim,if_pos (decide_eq_true h)]

theorem Sound.dropPath (hs : Sound s) (q : List (List Cell)) : Sound { s with curPath := q } := by
  have hl : Learn s { s with curPath := q } := by
    refine .other rfl rfl rfl fun h => ?_
    cases h <;> rfl
  exact hl.sound hs

theorem busy_of_early (he : (s.cell = s.startPoint ∧ s.exiting = true) ∨ s.curEnergy < 1 ∨
    s.cell ∈ s.goldCell) : s.Busy :=
  he.imp_right fun h => h.imp_right .inl

theorem decides_iff_of_busy (hb : s.Busy) (ha : ∃ a t, s.choose d = .act a t) :
    s.Decides d ↔ ∀ c, s.target = some c → s.Reaches s.cell c := by
  obtain ⟨a,t,h⟩ := ha
  refine ⟨fun _ c hc => ?_,fun _ => decides_of_act h⟩
  rw [target_of_busy hb] at hc
  cases hc

/-- By induction on the number of paths that are kept, of which the empty ones are dropped first. -/
theorem Sound.chooses_iff (hs : Sound s) :
    s.Decides d ↔ ∀ c, s.target = some c → s.Reaches s.cell c := by
  induction hn : s.curPath.length generalizing s with
  | zero =>
    by_cases he : (s.cell = s.startPoint ∧ s.exiting = true) ∨ s.curEnergy < 1 ∨ s.cell ∈ s.goldCell
    · exact decides_iff_of_busy (busy_of_early he) (choose_of_early he)
    · rw [not_or,not_or] at he
      exact Free.chooses_iff ⟨he.1,he.2.1,he.2.2,List.length_eq_zero_iff.mp hn⟩ hs
  | succ n ih =>
    by_cases he : (s.cell = s.startPoint ∧ s.exiting = true) ∨ s.curEnergy < 1 ∨ s.cell ∈ s.goldCell
    · exact decides_iff_of_busy (busy_of_early he) (choose_of_early he)
    · by_cases hdrop : [] ∈ s.curPath
      · rw [decides_of_retry (choose_of_drop he hdrop),← target_dropPath (s := s)]
        refine ih (hs.dropPath _) ?_
        change (s.curPath.erase []).length = n
        rw [List.length_erase_of_mem hdrop,hn,Nat.add_sub_cancel]
      · have hne : s.curPath ≠ [] := by
          intro h
          rw [h] at hn
          cases hn
        obtain ⟨p,hp⟩ := List.exists_mem_of_ne_nil _ hne
        refine decides_iff_of_busy (.inr (.inr (.inr (.inl ⟨p,hp,fun h => hdrop (h ▸ hp)⟩))))
          (choose_of_path hdrop hne)

end Exactly

end PucRio.Dungeon
