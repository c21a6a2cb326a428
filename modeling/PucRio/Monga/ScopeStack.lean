import PucRio.Monga.SymbolTable
import Mathlib.Data.Finset.Lattice.Fold
import Mathlib.Order.Lattice.Nat

/-! The symbol table on the heap is a stack of scopes. -/
namespace PucRio.Monga.Scopes
open Heap

section Representation

/-- The values in the cells of a scope. -/
def contents : List Dec → List (Option Dec)
  | [] => [none]
  | d::s => some d::s.map some

theorem contents_append {s : List Dec} (hs : s ≠ []) (dec : Dec) :
    contents (s++[dec]) = contents s++[some dec] := by
  cases s with
  | nil => exact absurd rfl hs
  | cons d s => simp [contents]

theorem contents_eq_map {s : List Dec} (hs : s ≠ []) : contents s = s.map some := by
  cases s with
  | nil => exact absurd rfl hs
  | cons d s => rfl

/-- The cells of a scope: its own, and those of its list. -/
structure Layout where
  table : ℕ
  nodes : List (ℕ × Option Dec)

def Layout.addresses (x : Layout) : List ℕ := x.table::x.nodes.map Prod.fst

def addresses (L : List Layout) : List ℕ := L.flatMap Layout.addresses

theorem addresses_cons (x : Layout) (L : List Layout) :
    addresses (x::L) = x.addresses++addresses L := List.flatMap_cons

inductive Represents (h : Memory) : Option ℕ → List Layout → SymbolTable → Prop
  | nil : Represents h none [] []
  | cons {table : ℕ} {current previous : Option ℕ} {nodes : List (ℕ × Option Dec)}
      {s : List Dec} {L : List Layout} {t : SymbolTable} : table ∈ h.live →
      h.cell table = .symbolTable current previous → Chain Cell.decs h current nodes →
      nodes.map Prod.snd = contents s → Represents h previous L t →
      Represents h (some table) (⟨table,nodes⟩::L) (s::t)

/-- All that is in use is the table. -/
structure Holds (s : State) (L : List Layout) (t : SymbolTable) : Prop where
  rep : Represents s.mem s.table L t
  nodup : (addresses L).Nodup
  live : ∀ a, a ∈ s.mem.live ↔ a ∈ addresses L

variable {h h' : Memory} {p : Option ℕ} {L : List Layout} {t : SymbolTable} {s : State}

theorem Represents.congr (hr : Represents h p L t) (hlive : ∀ a ∈ addresses L, a ∈ h'.live)
    (hcell : ∀ a ∈ addresses L, h'.cell a = h.cell a) : Represents h' p L t := by
  induction hr with
  | nil => exact .nil
  | cons ht hc hn hs hr ih =>
    simp only [addresses_cons,Layout.addresses,List.cons_append,List.forall_mem_cons,
      List.forall_mem_append] at hlive hcell
    refine .cons hlive.1 ((hcell.1).trans hc) (hn.congr ?_ ?_) hs (ih hlive.2.2 hcell.2.2)
    · intro x hx
      exact hlive.2.1 x.1 (List.mem_map_of_mem hx)
    · intro x hx
      exact hcell.2.1 x.1 (List.mem_map_of_mem hx)

theorem Represents.pointer (hr : Represents h p L t) : p = L.head?.map Layout.table := by
  cases hr <;> rfl

theorem Represents.length_eq (hr : Represents h p L t) : L.length = t.length := by
  induction hr with
  | nil => rfl
  | cons _ _ _ _ _ ih => simp [ih]

theorem Holds.card (hs : Holds s L t) : s.mem.live.card = (addresses L).length := by
  rw [← List.toFinset_card_of_nodup hs.nodup]
  congr 1
  ext a
  rw [hs.live,List.mem_toFinset]

theorem length_le_addresses (L : List Layout) : L.length ≤ (addresses L).length := by
  induction L with
  | nil => simp
  | cons x L ih =>
    simp only [addresses_cons,Layout.addresses,List.length_append,List.length_cons]
    omega

theorem mem_addresses_append {a : ℕ} {L₀ : List Layout} (L : List Layout)
    (ha : a ∈ addresses L₀) : a ∈ addresses (L++L₀) := by
  rw [addresses,List.flatMap_append]
  exact List.mem_append_right _ ha

theorem addresses_append (table : ℕ) (nodes : List (ℕ × Option Dec)) (a : ℕ × Option Dec) :
    (addresses (⟨table,nodes++[a]⟩::L)).Perm (a.1::addresses (⟨table,nodes⟩::L)) := by
  simp only [addresses_cons,Layout.addresses,List.map_append,List.map_cons,List.map_nil,
    List.cons_append,List.append_assoc,List.nil_append]
  exact (List.perm_middle.cons table).trans (List.Perm.swap ..)

theorem nodes_le_addresses {x : Layout} (hx : x ∈ L) : x.nodes.length ≤ (addresses L).length := by
  induction L with
  | nil => cases hx
  | cons y L ih =>
    simp only [addresses_cons,Layout.addresses,List.length_append,List.length_cons,List.length_map]
    obtain rfl | hx := List.mem_cons.mp hx
    · omega
    · have := ih hx
      omega

end Representation

section Find
variable {h : Memory} {p : Option ℕ} {L : List Layout} {t : SymbolTable} {s : State}
  {nodes : List (ℕ × Option Dec)} {ds : List Dec} {n : ℕ}

theorem findDec_map (id : String) (hc : Chain Cell.decs h p nodes)
    (hs : nodes.map Prod.snd = ds.map some) (hn : nodes.length ≤ n) :
    ∃ q, findDec h id n p = .ok q ∧ Shows h q (ds.find? fun dec => dec.id = id) := by
  induction ds generalizing nodes p n with
  | nil =>
    obtain rfl := List.map_eq_nil_iff.mp hs
    cases hc
    refine ⟨none,?_,.null⟩
    cases n <;> rfl
  | cons d ds ih =>
    cases hc with
    | nil => cases hs
    | @cons a v next nodes ha hv hc =>
      obtain ⟨rfl,hmap⟩ := List.cons.inj hs
      obtain ⟨n,rfl⟩ : ∃ k, n = k+1 := ⟨n-1,by simp at hn; omega⟩
      rw [findDec]
      simp only [node_some ha hv,except_ok_bind]
      by_cases hd : d.id = id
      · refine ⟨some a,by simp [hd,pure,Except.pure],?_⟩
        rw [List.find?_cons_of_pos (by simpa using hd)]
        cases hcell : h.cell a with
        | decList next' dec =>
          rw [hcell] at hv
          cases hv
          exact .dec ha hcell
        | symbolTable current previous =>
          rw [hcell] at hv
          cases hv
      · rw [List.find?_cons_of_neg (by simpa using hd),if_neg hd]
        exact ih hc hmap (Nat.le_of_succ_le_succ hn)

theorem findDec_contents (id : String) (hc : Chain Cell.decs h p nodes)
    (hs : nodes.map Prod.snd = contents ds) (hn : nodes.length ≤ n) :
    ∃ q, findDec h id n p = .ok q ∧ Shows h q (ds.find? fun dec => dec.id = id) := by
  cases ds with
  | cons d ds => exact findDec_map id hc hs hn
  | nil =>
    cases hc with
    | nil => cases hs
    | @cons a v next nodes ha hv hc =>
      obtain ⟨rfl,-⟩ := List.cons.inj hs
      obtain ⟨n,rfl⟩ : ∃ k, n = k+1 := ⟨n-1,by simp at hn; omega⟩
      refine ⟨none,?_,.null⟩
      rw [findDec]
      simp only [node_some ha hv,except_ok_bind]
      rfl

theorem Shows.isSome {q : Option ℕ} {o : Option Dec} (hq : Shows h q o) : q.isSome = o.isSome := by
  cases hq <;> rfl

theorem findFrom_eq (id : String) (hr : Represents h p L t) (hn : L.length ≤ n)
    (hcard : ∀ x ∈ L, x.nodes.length ≤ h.live.card) :
    ∃ q, findFrom h id n p = .ok q ∧ Shows h q (Monga.find t id) := by
  induction hr generalizing n with
  | nil =>
    refine ⟨none,?_,.null⟩
    cases n <;> rfl
  | @cons table current previous nodes ds L t ht hc hnodes hs hr ih =>
    obtain ⟨n,rfl⟩ : ∃ k, n = k+1 := ⟨n-1,by simp at hn; omega⟩
    obtain ⟨hx,hcard⟩ := List.forall_mem_cons.mp hcard
    obtain ⟨q,hq,hshows⟩ := findDec_contents id hnodes hs hx
    have hv : Cell.tables (h.cell table) = some (current,previous) := by rw [hc]; rfl
    rw [findFrom,Monga.find,List.flatten_cons,List.find?_append]
    simp only [node_some ht hv,except_ok_bind,hq]
    cases hfound : ds.find? fun dec => dec.id = id with
    | some d =>
      rw [hfound] at hshows
      have hsome : q.isSome = true := hshows.isSome
      rw [if_pos hsome]
      exact ⟨q,rfl,hshows⟩
    | none =>
      rw [hfound] at hshows
      rw [if_neg (by simp [hshows.isSome]),Option.none_or]
      exact ih (Nat.le_of_succ_le_succ hn) hcard

theorem Holds.nodes_le (hs : Holds s L t) : ∀ x ∈ L, x.nodes.length ≤ s.mem.live.card := by
  intro x hx
  rw [hs.card]
  exact nodes_le_addresses hx

theorem Holds.find (hs : Holds s L t) (id : String) :
    ∃ q, find s.mem s.table id = .ok q ∧ Shows s.mem q (Monga.find t id) :=
  findFrom_eq id hs.rep (hs.card ▸ length_le_addresses L) hs.nodes_le

theorem Holds.findCurrentScope (hs : Holds s L t) (hL : L ≠ []) (id : String) :
    ∃ q, findCurrentScope s.mem s.table id = .ok q ∧
      Shows s.mem q (Monga.findCurrentScope t id) := by
  obtain ⟨⟨mem,table⟩,hr⟩ : ∃ s', s = s' := ⟨s,rfl⟩
  subst hr
  have hcard := hs.nodes_le
  cases hs.rep with
  | nil => exact absurd rfl hL
  | cons ht hc hnodes hds hr =>
    obtain ⟨q,hq,hshows⟩ := findDec_contents id hnodes hds (hcard _ List.mem_cons_self)
    refine ⟨q,?_,hshows⟩
    have hv := congrArg Cell.tables hc
    rw [Scopes.findCurrentScope]
    simp only [node_some ht hv,except_ok_bind,hq]

end Find

section Operations
variable {A : Allocator} {h h' : Memory} {p : Option ℕ} {s : State} {x : Layout} {L : List Layout}
  {t : SymbolTable} {ds : List Dec}

theorem create_symbolTable_cases (A : Allocator) (h : Memory) :
    (A.Refuses ∧ create_symbolTable A h = .error .exhausted) ∨
      ∃ a b h', create_symbolTable A h = .ok (a,h') ∧ a ∉ h.live ∧ b ∉ h.live ∧ a ≠ b ∧
        h'.live = insert b (insert a h.live) ∧
      h'.cell a = .symbolTable (some b) none ∧ h'.cell b = .decList none none ∧
      ∀ c, c ≠ a → c ≠ b → h'.cell c = h.cell c := by
  rw [create_symbolTable]
  obtain ⟨hA,he⟩ | ⟨a,ha,he⟩ := malloc_cases A h (.symbolTable none none)
  · rw [he]
    exact .inl ⟨hA,rfl⟩
  simp only [he,except_ok_bind]
  obtain ⟨hA,he⟩ | ⟨b,hb,he⟩ := malloc_cases A (⟨insert a h.live,Function.update h.cell a
    (.symbolTable none none),h.requests+1⟩ : Memory) (.decList none none)
  · rw [he]
    exact .inl ⟨hA,rfl⟩
  obtain ⟨hba,hb⟩ := not_or.mp (Finset.mem_insert.not.mp hb)
  right
  simp only [he,except_ok_bind]
  rw [store_some (by simp)]
  refine ⟨a,b,_,rfl,ha,hb,Ne.symm hba,rfl,?_,?_,?_⟩
  · simp
  · simp [hba]
  · intro c hca hcb
    simp [hca,hcb]

/-- A new scope is the innermost one, and the others stay. -/
theorem Holds.enterScope (hs : Holds s L t) (A : Allocator) :
    (A.Refuses ∧ step A s .enterScope = .error .exhausted) ∨ ∃ s' x, step A s .enterScope = .ok s' ∧
      Holds s' (x::L) ([]::t) ∧ ∀ a ∈ addresses L, s'.mem.cell a = s.mem.cell a := by
  rw [step,Scopes.enterScope]
  obtain ⟨hA,he⟩ | ⟨a,b,h,he,ha,hb,hab,hlive,hcella,hcellb,hcell⟩ := create_symbolTable_cases A s.mem
  · rw [he]
    exact .inl ⟨hA,rfl⟩
  right
  have halive : a ∈ h.live := by simp [hlive]
  have hv := congrArg Cell.tables hcella
  simp only [he,except_ok_bind,node_some halive hv,store_some halive]
  rw [hs.live] at ha hb
  have hkeep : ∀ c ∈ addresses L, Function.update h.cell a (.symbolTable (some b) s.table) c =
      s.mem.cell c := by
    intro c hc
    have hca : c ≠ a := fun heq => ha (heq ▸ hc)
    have hcb : c ≠ b := fun heq => hb (heq ▸ hc)
    rw [Function.update_of_ne hca,hcell c hca hcb]
  refine ⟨_,⟨a,[(b,none)]⟩,rfl,⟨?_,?_,?_⟩,hkeep⟩
  · refine .cons halive (Function.update_self ..) (.cons ?_ ?_ .nil) rfl (hs.rep.congr ?_ hkeep)
    · simp [hlive]
    · simp [hab.symm,hcellb,Cell.decs]
    · intro c hc
      simp [hlive,(hs.live c).mpr hc]
  · simp [addresses_cons,Layout.addresses,hab,ha,hb,hs.nodup]
  · intro c
    simp only [hlive,Finset.mem_insert,hs.live,addresses_cons,Layout.addresses,List.map_cons,
      List.map_nil,List.cons_append,List.nil_append,List.mem_cons]
    tauto

/-- Leaving a scope frees its cells, and changes no other. -/
theorem Holds.leaveScope (hs : Holds s (x::L) (ds::t)) (A : Allocator) :
    ∃ s', step A s .leaveScope = .ok s' ∧ Holds s' L t ∧ s'.mem.cell = s.mem.cell := by
  obtain ⟨⟨mem,table⟩,hr⟩ : ∃ s', s = s' := ⟨s,rfl⟩
  subst hr
  have hcard := hs.nodes_le
  have hnodup := hs.nodup
  have hlive := hs.live
  cases hs.rep with
  | @cons table current previous nodes _ _ _ ht hc hnodes hds hr =>
    obtain ⟨htable,hnodup⟩ := List.nodup_cons.mp hnodup
    obtain ⟨hn,hL,hdisj⟩ := List.nodup_append.mp hnodup
    obtain ⟨htn,htL⟩ := not_or.mp (List.mem_append.not.mp htable)
    have hv := congrArg Cell.tables hc
    rw [step,Scopes.leaveScope]
    have hfree := free_some (h := { mem with live := mem.live \ (nodes.map Prod.fst).toFinset })
      (Finset.mem_sdiff.mpr ⟨ht,List.mem_toFinset.not.mpr htn⟩)
    simp only [node_some ht hv,except_ok_bind,
      hnodes.freeAll_eq hn (hcard _ List.mem_cons_self),hfree]
    have hmem : ∀ a, a ∈ (mem.live \ (nodes.map Prod.fst).toFinset).erase table ↔
        a ∈ addresses L := by
      intro a
      rw [Finset.mem_erase,Finset.mem_sdiff,List.mem_toFinset,hlive,addresses_cons,
        List.mem_append,Layout.addresses,List.mem_cons]
      constructor
      · tauto
      · intro ha
        refine ⟨fun heq => htL (heq ▸ ha),.inr ha,fun han => hdisj a han a ha rfl⟩
    refine ⟨⟨{ mem with live := (mem.live \ (nodes.map Prod.fst).toFinset).erase table },previous⟩,
      rfl,⟨hr.congr ?_ fun _ _ => rfl,hL,hmem⟩,rfl⟩
    intro a ha
    exact (hmem a).mpr ha

/-- The first declaration of a scope. -/
theorem Holds.addDec_first (hs : Holds s (x::L) ([]::t)) (A : Allocator) (dec : Dec) :
    ∃ h' x', addDec A s.mem s.table dec = .ok h' ∧ Holds ⟨h',s.table⟩ (x'::L) ([dec]::t) ∧
      ∀ a ∈ addresses L, h'.cell a = s.mem.cell a := by
  obtain ⟨⟨mem,table⟩,hr⟩ : ∃ s', s = s' := ⟨s,rfl⟩
  subst hr
  have hnodup := hs.nodup
  have hlive := hs.live
  cases hs.rep with
  | @cons table current previous nodes _ _ _ ht hc hnodes hds hr =>
    cases hnodes with
    | nil => cases hds
    | @cons a v next nodes ha hv hnodes =>
      obtain ⟨rfl,htail⟩ := List.cons.inj hds
      obtain rfl := List.map_eq_nil_iff.mp htail
      cases hnodes
      simp only [addresses_cons,Layout.addresses,List.map_cons,List.map_nil,List.cons_append,
        List.nil_append,List.nodup_cons,List.mem_cons,not_or] at hnodup
      obtain ⟨⟨hta,htL⟩,haL,-⟩ := hnodup
      have hkeep : ∀ c ∈ addresses L, Function.update mem.cell a (.decList none (some dec)) c =
          mem.cell c := by
        intro c hcL
        have hca : c ≠ a := fun heq => haL (heq ▸ hcL)
        exact Function.update_of_ne hca ..
      refine ⟨{ mem with cell := Function.update mem.cell a (.decList none (some dec)) },
        ⟨table,[(a,some dec)]⟩,?_,⟨?_,hs.nodup,hs.live⟩,hkeep⟩
      · have htables := congrArg Cell.tables hc
        rw [addDec]
        simp only [node_some ht htables,node_some ha hv,except_ok_bind,Option.isNone_none,if_true]
        exact store_some ha
      · refine .cons ht ?_ (.cons ha ?_ .nil) rfl (hr.congr ?_ hkeep)
        · exact (Function.update_of_ne hta ..).trans hc
        · simp [Cell.decs]
        · intro c hcL
          refine (hlive c).mpr ?_
          simp [addresses_cons,hcL]

/-- The list of a scope with one more cell, which the last one points to. -/
theorem Represents.append_dec (h' : Memory) {table b new : ℕ} {v : Option Dec} {dec : Dec}
    {init : List (ℕ × Option Dec)}
    (hr : Represents h p (⟨table,init++[(b,v)]⟩::L) (ds::t)) (hds : ds ≠ [])
    (hnodup : (addresses (⟨table,init++[(b,v)]⟩::L)).Nodup)
    (hlive : ∀ c ∈ addresses (⟨table,init++[(b,v)]⟩::L), c ∈ h'.live) (hnewlive : new ∈ h'.live)
    (hkeep : ∀ c ∈ addresses (⟨table,init++[(b,v)]⟩::L), c ≠ b → h'.cell c = h.cell c)
    (hb : h'.cell b = .decList (some new) v) (hcell : h'.cell new = .decList none (some dec)) :
    Represents h' p (⟨table,init++[(b,v)]++[(new,some dec)]⟩::L) ((ds++[dec])::t) ∧
      ∀ a ∈ addresses L, h'.cell a = h.cell a := by
  cases hr with
  | @cons table current previous nodes _ _ _ ht hc hnodes hval hr =>
    obtain ⟨htable,hrest⟩ := List.nodup_cons.mp hnodup
    obtain ⟨hn,hL,hdisj⟩ := List.nodup_append.mp hrest
    have hbL : b ∉ addresses L := fun hb => hdisj b (by simp) b hb rfl
    have htb : table ≠ b := fun heq => htable (by simp [heq])
    have hinit : ∀ y ∈ init, y.1 ≠ b := by
      intro y hy heq
      rw [List.map_append] at hn
      exact (List.nodup_append.mp hn).2.2 y.1 (List.mem_map_of_mem hy) b (by simp) heq
    have hmeminit : ∀ y ∈ init, y.1 ∈ addresses (⟨table,init++[(b,v)]⟩::L) := by
      intro y hy
      have hmap : y.1 ∈ init.map Prod.fst := List.mem_map_of_mem hy
      simp [addresses_cons,Layout.addresses,hmap]
    have hmemL : ∀ c ∈ addresses L, c ∈ addresses (⟨table,init++[(b,v)]⟩::L) :=
      fun c hcL => List.mem_append_right _ hcL
    have hother : ∀ c ∈ addresses L, h'.cell c = h.cell c :=
      fun c hcL => hkeep c (hmemL c hcL) fun heq => hbL (heq ▸ hcL)
    have hlist : Chain Cell.decs h' current (init++(b,v)::[(new,some dec)]) := by
      apply hnodes.append
      · intro y hy
        exact hlive y.1 (hmeminit y hy)
      · intro y hy
        exact hkeep y.1 (hmeminit y hy) (hinit y hy)
      · exact hlive b (by simp [addresses_cons,Layout.addresses])
      · rw [hb]
        rfl
      · exact .cons hnewlive (by rw [hcell]; rfl) .nil
    refine ⟨.cons (hlive table List.mem_cons_self)
      ((hkeep table List.mem_cons_self htb).trans hc) ?_ ?_ (hr.congr ?_ hother),hother⟩
    · rw [List.append_assoc]
      exact hlist
    · rw [List.map_append,hval,contents_append hds]
      rfl
    · intro c hcL
      exact hlive c (hmemL c hcL)

/-- One more declaration goes behind the last one. -/
theorem Holds.addDec_next (hs : Holds s (x::L) (ds::t)) (hds : ds ≠ []) (A : Allocator)
    (dec : Dec) : (A.Refuses ∧ addDec A s.mem s.table dec = .error .exhausted) ∨
      ∃ h' x', addDec A s.mem s.table dec = .ok h' ∧
        Holds ⟨h',s.table⟩ (x'::L) ((ds++[dec])::t) ∧
        ∀ a ∈ addresses L, h'.cell a = s.mem.cell a := by
  obtain ⟨⟨mem,table⟩,hr⟩ : ∃ s', s = s' := ⟨s,rfl⟩
  subst hr
  have hnodup := hs.nodup
  have hlive := hs.live
  cases hs.rep with
  | @cons table current previous nodes _ _ _ ht hc hnodes hval hr =>
    have htables := congrArg Cell.tables hc
    have hfirst : ∃ d next, mem.node Cell.decs current = .ok (some d,next) := by
      rw [contents_eq_map hds] at hval
      cases hnodes with
      | nil => exact absurd (List.map_eq_nil_iff.mp hval.symm) hds
      | @cons a v next nodes ha hv _ =>
        cases ds with
        | nil => exact absurd rfl hds
        | cons d ds =>
          obtain ⟨rfl,-⟩ := List.cons.inj hval
          exact ⟨d,next,node_some ha hv⟩
    obtain ⟨d,next,hfirst⟩ := hfirst
    obtain rfl | ⟨init,⟨b,v⟩,rfl⟩ := List.eq_nil_or_concat nodes
    · exact absurd (hval.symm.trans rfl) (by cases ds <;> simp_all [contents])
    rw [List.concat_eq_append] at *
    have hlen : (init++[(b,v)]).length ≤ mem.live.card := hs.nodes_le _ List.mem_cons_self
    have hblive : b ∈ mem.live := hnodes.live (b,v) (by simp)
    have hlast : mem.last Cell.decs mem.live.card current = .ok (some b) :=
      hnodes.last_eq (by simp at hlen; omega)
    rw [addDec]
    simp only [node_some ht htables,hfirst,except_ok_bind,Option.isNone_some,Bool.false_eq_true,
      if_false,hlast]
    obtain ⟨hA,he⟩ | ⟨new,hnew,he⟩ := malloc_cases A mem (.decList none (some dec))
    · rw [he]
      exact .inl ⟨hA,rfl⟩
    right
    have hbn : b ≠ new := fun heq => hnew (heq ▸ hblive)
    have hbcell : Cell.decs (Function.update mem.cell new (.decList none (some dec)) b) =
        some (v,none) := by
      rw [Function.update_of_ne hbn]
      exact hnodes.last_view
    have hb₁ : b ∈ insert new mem.live := Finset.mem_insert_of_mem hblive
    simp only [he,except_ok_bind]
    rw [node_some hb₁ hbcell,except_ok_bind,store_some hb₁]
    have hperm := addresses_append (L := L) table (init++[(b,v)]) (new,some dec)
    have hnewL : new ∉ addresses (⟨table,init++[(b,v)]⟩::L) := (hlive new).not.mp hnew
    have hkeep : ∀ c ∈ addresses (⟨table,init++[(b,v)]⟩::L), c ≠ b → Function.update
        (Function.update mem.cell new (.decList none (some dec))) b (.decList (some new) v) c =
          mem.cell c := by
      intro c hcL hcb
      have hcn : c ≠ new := fun heq => hnewL (heq ▸ hcL)
      rw [Function.update_of_ne hcb,Function.update_of_ne hcn]
    obtain ⟨hrep,hL⟩ := hs.rep.append_dec
      ⟨insert new mem.live,Function.update (Function.update mem.cell new
        (.decList none (some dec))) b (.decList (some new) v),mem.requests+1⟩ hds hnodup
      (fun c hcL => Finset.mem_insert_of_mem ((hlive c).mpr hcL)) (Finset.mem_insert_self ..) hkeep
      (Function.update_self ..)
      ((Function.update_of_ne hbn.symm ..).trans (Function.update_self ..))
    refine ⟨_,_,rfl,⟨hrep,?_,?_⟩,hL⟩
    · exact hperm.nodup_iff.mpr (List.nodup_cons.mpr ⟨hnewL,hnodup⟩)
    · intro c
      rw [hperm.mem_iff,List.mem_cons,← hlive]
      exact Finset.mem_insert

theorem Holds.addDec (hs : Holds s (x::L) (ds::t)) (A : Allocator) (dec : Dec) :
    (A.Refuses ∧ addDec A s.mem s.table dec = .error .exhausted) ∨
      ∃ h' x', addDec A s.mem s.table dec = .ok h' ∧
        Holds ⟨h',s.table⟩ (x'::L) ((ds++[dec])::t) ∧
        ∀ a ∈ addresses L, h'.cell a = s.mem.cell a := by
  by_cases hds : ds = []
  · subst hds
    exact .inr (hs.addDec_first A dec)
  · exact hs.addDec_next hds A dec

end Operations

section Commands
variable {A : Allocator} {s : State} {x : Layout} {L L₀ : List Layout} {t : SymbolTable}
  {ds : List Dec} {c : Command} {dec : Dec} {l : List Command} {n k : ℕ}

/-- A command on the lists of declarations. -/
def perform (t : SymbolTable) : Command → SymbolTable
  | .enterScope => Monga.enterScope t
  | .leaveScope => t.tail
  | .addDecVar v => Monga.addDec t (.v v)
  | .addParam param => Monga.addDec t (.p param)
  | .addDecFunc f => Monga.addDec t (.f f)

theorem step_dec (A : Allocator) (s : State) (hc : c.dec = some dec) :
    step A s c = do
      let mem ← addDec A s.mem s.table dec
      return { s with mem := mem } := by
  cases c <;> cases hc <;> rfl

theorem perform_dec (t : SymbolTable) (hc : c.dec = some dec) :
    perform t c = Monga.addDec t dec := by
  cases c <;> cases hc <;> rfl

theorem depth_dec (n : ℕ) (l : List Command) (hc : c.dec = some dec) :
    depth n (c::l) = depth n l := by
  cases c <;> cases hc <;> rfl

/-- A command on a table that has more scopes than the ones that were there before. -/
theorem Holds.step (hs : Holds s (L++L₀) t) (hL : L.length = n+1)
    (hd : depth n (c::l) = some k) :
    (A.Refuses ∧ step A s c = .error .exhausted) ∨ ∃ s' L' m, step A s c = .ok s' ∧
      Holds s' (L'++L₀) (perform t c) ∧ L'.length = m+1 ∧ depth m l = some k ∧
      ∀ a ∈ addresses L₀, s'.mem.cell a = s.mem.cell a := by
  obtain ⟨x,L,rfl⟩ := List.exists_cons_of_length_eq_add_one hL
  obtain ⟨ds,t,rfl⟩ : ∃ ds t', t = ds::t' := by
    apply List.exists_cons_of_length_pos
    rw [← hs.rep.length_eq]
    exact Nat.succ_pos _
  cases hc : c.dec with
  | some dec =>
    rw [step_dec A s hc,perform_dec _ hc]
    obtain ⟨hA,he⟩ | ⟨h',x',he,hs',hcell⟩ := hs.addDec A dec
    · rw [he]
      exact .inl ⟨hA,rfl⟩
    · rw [he]
      refine .inr ⟨_,x'::L,n,rfl,hs',hL,?_,fun a ha => hcell a (mem_addresses_append L ha)⟩
      rw [← hd,depth_dec n l hc]
  | none =>
    cases c with
    | enterScope =>
      obtain ⟨hA,he⟩ | ⟨s',x',he,hs',hcell⟩ := hs.enterScope A
      · exact .inl ⟨hA,he⟩
      · refine .inr ⟨s',x'::x::L,n+1,he,hs',?_,hd,?_⟩
        · rw [List.length_cons,hL]
        · intro a ha
          exact hcell a (mem_addresses_append (x::L) ha)
    | leaveScope =>
      obtain ⟨s',he,hs',hcell⟩ := hs.leaveScope A
      cases n with
      | zero => cases hd
      | succ n =>
        exact .inr ⟨s',L,n,he,hs',Nat.succ_injective hL,hd,fun a _ => congrFun hcell a⟩
    | addDecVar v => cases hc
    | addParam param => cases hc
    | addDecFunc f => cases hc

theorem Holds.runFrom (L₀ : List Layout) (hs : Holds s (L++L₀) t) (hL : L.length = n+1)
    (hd : depth n l = some k) :
    (A.Refuses ∧ runFrom A s l = .error .exhausted) ∨ ∃ s' L', runFrom A s l = .ok s' ∧
      Holds s' (L'++L₀) (l.foldl perform t) ∧ L'.length = k+1 ∧
      ∀ a ∈ addresses L₀, s'.mem.cell a = s.mem.cell a := by
  induction l generalizing s t L n with
  | nil =>
    obtain rfl := Option.some.inj hd
    exact .inr ⟨s,L,rfl,hs,hL,fun _ _ => rfl⟩
  | cons c l ih =>
    rw [Scopes.runFrom]
    obtain ⟨hA,he⟩ | ⟨s₁,L₁,m,he,hs₁,hL₁,hd₁,hcell₁⟩ := hs.step hL hd
    · rw [he]
      exact .inl ⟨hA,rfl⟩
    rw [he,except_ok_bind]
    obtain ⟨hA,he⟩ | ⟨s₂,L₂,he₂,hs₂,hL₂,hcell₂⟩ := ih hs₁ hL₁ hd₁
    · exact .inl ⟨hA,he⟩
    · exact .inr ⟨s₂,L₂,he₂,hs₂,hL₂,fun a ha => (hcell₂ a ha).trans (hcell₁ a ha)⟩

theorem start_holds (A : Allocator) :
    (A.Refuses ∧ start A = .error .exhausted) ∨ ∃ s x, start A = .ok s ∧ Holds s [x] [[]] := by
  rw [start]
  obtain ⟨hA,he⟩ | ⟨a,b,h,he,-,-,hab,hlive,hcella,hcellb,-⟩ :=
    create_symbolTable_cases A ⟨∅,fun _ => .decList none none,0⟩
  · rw [he]
    exact .inl ⟨hA,rfl⟩
  right
  rw [he]
  refine ⟨_,⟨a,[(b,none)]⟩,rfl,.cons ?_ hcella (.cons ?_ ?_ .nil) rfl .nil,?_,?_⟩
  · simp [hlive]
  · simp [hlive]
  · rw [hcellb]
    rfl
  · simp [addresses,Layout.addresses,hab]
  · intro c
    simp [hlive,addresses,Layout.addresses,or_comm]

/-- A run ends where memory is exhausted, or on the lists that its commands leave. -/
theorem run_holds (A : Allocator) (hd : depth 0 l = some k) :
    (A.Refuses ∧ run A l = .error .exhausted) ∨ ∃ s L, run A l = .ok s ∧
      Holds s L (l.foldl perform [[]]) ∧ L.length = k+1 := by
  rw [run]
  obtain ⟨hA,he⟩ | ⟨s,x,he,hs⟩ := start_holds A
  · rw [he]
    exact .inl ⟨hA,rfl⟩
  rw [he,except_ok_bind]
  obtain ⟨hA,he⟩ | ⟨s',L,he,hs',hL,-⟩ := Holds.runFrom (L := [x]) [] hs rfl hd
  · exact .inl ⟨hA,he⟩
  · rw [List.append_nil] at hs'
    exact .inr ⟨s',L,he,hs',hL⟩

theorem runFrom_append (A : Allocator) (s : State) (l l' : List Command) :
    Scopes.runFrom A s (l++l') = Scopes.runFrom A s l >>= fun s' => Scopes.runFrom A s' l' := by
  induction l generalizing s with
  | nil => rfl
  | cons c l ih =>
    rw [List.cons_append,Scopes.runFrom,Scopes.runFrom]
    cases Scopes.step A s c with
    | error e => rfl
    | ok s' => exact ih s'

theorem run_append (A : Allocator) (l l' : List Command) :
    run A (l++l') = run A l >>= fun s => Scopes.runFrom A s l' := by
  rw [run,run]
  cases start A with
  | error e => rfl
  | ok s => exact runFrom_append A s l l'

theorem depth_append (n : ℕ) (l l' : List Command) :
    depth n (l++l') = (depth n l).bind fun m => depth m l' := by
  induction l generalizing n with
  | nil => rfl
  | cons c l ih =>
    rw [List.cons_append]
    cases hc : c.dec with
    | some dec => rw [depth_dec n _ hc,depth_dec n _ hc,ih]
    | none =>
      cases c with
      | enterScope => exact ih (n+1)
      | leaveScope =>
        cases n with
        | zero => rfl
        | succ n => exact ih n
      | addDecVar v => cases hc
      | addParam param => cases hc
      | addDecFunc f => cases hc

/-- What is declared in a scope is gone when it is left. -/
theorem Holds.left {s' : State} {inner : List Command} (hs : Holds s L t)
    (hd : depth 0 inner = some 0)
    (hrun : Scopes.runFrom A s (.enterScope::inner++[.leaveScope]) = .ok s') : s'.Same s := by
  rw [List.cons_append,Scopes.runFrom] at hrun
  obtain ⟨s₁,h₁,hrun⟩ := ok_of_bind hrun
  obtain ⟨hA,he⟩ | ⟨s₁',x,he,hs₁,hcell₁⟩ := hs.enterScope A
  · cases he.symm.trans h₁
  obtain rfl := Except.ok.inj (he.symm.trans h₁)
  rw [runFrom_append] at hrun
  obtain ⟨s₂,h₂,hrun⟩ := ok_of_bind hrun
  obtain ⟨hA,he⟩ | ⟨s₂',L₂,he,hs₂,hL₂,hcell₂⟩ := Holds.runFrom (A := A) (L := [x]) _ hs₁ rfl hd
  · cases he.symm.trans h₂
  obtain rfl := Except.ok.inj (he.symm.trans h₂)
  rw [Scopes.runFrom] at hrun
  obtain ⟨s₃,h₃,hrun⟩ := ok_of_bind hrun
  obtain rfl := Except.ok.inj hrun
  obtain ⟨y,rfl⟩ := List.length_eq_one_iff.mp hL₂
  obtain ⟨ds,t₂,ht⟩ : ∃ ds t', inner.foldl perform ([]::t) = ds::t' := by
    apply List.exists_cons_of_length_pos
    rw [← hs₂.rep.length_eq]
    exact Nat.succ_pos _
  rw [ht] at hs₂
  obtain ⟨s₃',he,hs₃,hcell₃⟩ := hs₂.leaveScope A
  obtain rfl := Except.ok.inj (he.symm.trans h₃)
  change Holds s₃' L t₂ at hs₃
  refine ⟨?_,?_,?_⟩
  · rw [hs₃.rep.pointer,hs.rep.pointer]
  · ext a
    rw [hs₃.live,hs.live]
  · intro a ha
    have haL := (hs₃.live a).mp ha
    rw [hcell₃,hcell₂ a haL,hcell₁ a haL]

end Commands

section Stack
variable {A : Allocator} {s : State} {L : List Layout} {t : SymbolTable} {l : List Command}

/-- The map of a list of declarations: the first one with a name counts. -/
def lookup (ds : List Dec) (id : String) : Option Dec := ds.find? fun dec => dec.id = id

theorem lookup_append {ds : List Dec} {dec : Dec} (h : lookup ds dec.id = none) :
    lookup (ds++[dec]) = Function.update (lookup ds) dec.id (some dec) := by
  funext id
  unfold lookup at h ⊢
  rw [List.find?_append]
  by_cases hid : id = dec.id
  · subst hid
    rw [h,Function.update_self]
    simp
  · rw [Function.update_of_ne hid,List.find?_cons_of_neg (by simpa using Ne.symm hid)]
    simp

theorem find_eq (t : SymbolTable) (id : String) :
    Monga.find t id = Stack.find (t.map lookup) id := by
  rw [Monga.find,Stack.find,List.find?_flatten,List.findSome?_map]
  rfl

theorem findCurrentScope_eq (t : SymbolTable) (id : String) :
    Monga.findCurrentScope t id = Stack.current (t.map lookup) id := by
  cases t <;> rfl

theorem map_addDec {dec : Dec} (ht : t ≠ []) (h : Monga.findCurrentScope t dec.id = none) :
    (Monga.addDec t dec).map lookup = Stack.declare (t.map lookup) dec := by
  cases t with
  | nil => exact absurd rfl ht
  | cons ds t =>
    have hds : lookup ds dec.id = none := h
    show lookup (ds++[dec])::t.map lookup = _
    rw [lookup_append hds]
    rfl

theorem map_perform {c : Command} (ht : t ≠ [])
    (h : ∀ dec, c.dec = some dec → Monga.findCurrentScope t dec.id = none) :
    (perform t c).map lookup = Stack.perform (t.map lookup) c := by
  cases c with
  | enterScope => rfl
  | leaveScope => exact List.map_tail
  | addDecVar v => exact map_addDec ht (h _ rfl)
  | addParam param => exact map_addDec ht (h _ rfl)
  | addDecFunc f => exact map_addDec ht (h _ rfl)

theorem Shows.eq_none {h : Memory} {o : Option Dec} (hq : Shows h none o) : o = none := by
  cases hq
  rfl

/-- Where no name is declared twice in a scope, the lists are the stack of maps. -/
theorem map_foldl (hd : (depth 0 l).isSome) (hn : NewNames A l) (hrun : run A l = .ok s) :
    (l.foldl perform [[]]).map lookup = declared l := by
  induction l using List.reverseRecOn generalizing s with
  | nil => rfl
  | append_singleton l c ih =>
    rw [depth_append] at hd
    obtain ⟨k,hk⟩ : ∃ k, depth 0 l = some k := by
      cases hk : depth 0 l with
      | none => simp [hk] at hd
      | some k => exact ⟨k,rfl⟩
    rw [run_append] at hrun
    obtain ⟨s₁,h₁,-⟩ := ok_of_bind hrun
    obtain ⟨hA,he⟩ | ⟨s₁',L,he,hs,hL⟩ := run_holds A hk
    · cases he.symm.trans h₁
    obtain rfl := Except.ok.inj (he.symm.trans h₁)
    have hne : L ≠ [] := List.ne_nil_of_length_eq_add_one hL
    have ht : l.foldl perform [[]] ≠ [] := by
      apply List.ne_nil_of_length_eq_add_one
      rw [← hs.rep.length_eq,hL]
    have hold : NewNames A l := by
      intro l₁ c' l₂ dec s' hl
      exact hn l₁ c' (l₂++[c]) dec s' (by rw [hl,List.append_assoc,List.cons_append])
    rw [declared,List.foldl_append,List.foldl_append,← declared,← ih (by simp [hk]) hold h₁]
    apply map_perform ht
    intro dec hc
    obtain ⟨q,hq,hshows⟩ := hs.findCurrentScope hne dec.id
    rw [hn l c [] dec s₁' rfl hc h₁] at hq
    obtain rfl := Except.ok.inj hq
    exact hshows.eq_none

/-- The lists show whether a name is new. -/
def newOn (t : SymbolTable) : List Command → Bool
  | [] => true
  | c::l => (c.dec.all fun dec => (Monga.findCurrentScope t dec.id).isNone) && newOn (perform t c) l

theorem findCurrentScope_of_newOn {l₁ l₂ : List Command} {c : Command} {dec : Dec}
    (h : newOn t (l₁++c::l₂) = true) (hc : c.dec = some dec) :
    Monga.findCurrentScope (l₁.foldl perform t) dec.id = none := by
  induction l₁ generalizing t with
  | nil =>
    obtain ⟨h,-⟩ := Bool.and_eq_true_iff.mp h
    rw [hc] at h
    exact Option.isNone_iff_eq_none.mp h
  | cons c' l₁ ih => exact ih (Bool.and_eq_true_iff.mp h).2

theorem newNames_of_newOn (A : Allocator) (hd : (depth 0 l).isSome) (h : newOn [[]] l = true) :
    NewNames A l := by
  rintro l₁ c l₂ dec s rfl hc hrun
  rw [depth_append] at hd
  obtain ⟨k,hk⟩ := Option.isSome_iff_exists.mp hd
  obtain ⟨m,hm,-⟩ := Option.bind_eq_some_iff.mp hk
  obtain ⟨hA,he⟩ | ⟨s',L,he,hs,hL⟩ := run_holds A hm
  · cases he.symm.trans hrun
  obtain rfl := Except.ok.inj (he.symm.trans hrun)
  obtain ⟨q,hq,hshows⟩ := hs.findCurrentScope (List.ne_nil_of_length_eq_add_one hL) dec.id
  rw [findCurrentScope_of_newOn h hc] at hshows
  rw [hq]
  cases hshows
  rfl

/-- In a bracketed run, every declaration is found in the innermost scope that has it, the current
scope has what has been declared in it, and a scope that is left leaves the table as it was. -/
theorem table_is_stack (A : Allocator) (l : List Command) (hd : (depth 0 l).isSome)
    (hn : NewNames A l) :
    (A.Refuses ∧ run A l = .error .exhausted) ∨ ∃ s, run A l = .ok s ∧
      (∀ id, ∃ q, find s.mem s.table id = .ok q ∧ Shows s.mem q ((declared l).find id)) ∧
      (∀ id, ∃ q, findCurrentScope s.mem s.table id = .ok q ∧
        Shows s.mem q ((declared l).current id)) ∧
      ∀ l₁ inner, l = l₁++.enterScope::inner++[.leaveScope] → depth 0 inner = some 0 →
        ∃ s₁, run A l₁ = .ok s₁ ∧ s.Same s₁ := by
  obtain ⟨k,hk⟩ := Option.isSome_iff_exists.mp hd
  obtain ⟨hA,he⟩ | ⟨s,L,he,hs,hL⟩ := run_holds A hk
  · exact .inl ⟨hA,he⟩
  right
  have hmap := map_foldl hd hn he
  refine ⟨s,he,?_,?_,?_⟩
  · intro id
    rw [← hmap,← find_eq]
    exact hs.find id
  · intro id
    rw [← hmap,← findCurrentScope_eq]
    exact hs.findCurrentScope (List.ne_nil_of_length_eq_add_one hL) id
  · rintro l₁ inner rfl hinner
    rw [List.append_assoc,run_append] at he
    obtain ⟨s₁,h₁,hrun⟩ := ok_of_bind he
    rw [List.append_assoc,depth_append] at hk
    obtain ⟨m,hm,-⟩ := Option.bind_eq_some_iff.mp hk
    obtain ⟨hA,he⟩ | ⟨s₁',L₁,he,hs₁,-⟩ := run_holds A hm
    · cases he.symm.trans h₁
    obtain rfl := Except.ok.inj (he.symm.trans h₁)
    exact ⟨s₁',h₁,hs₁.left hinner hrun⟩

/-- Every request is answered, with an address beyond those in use. -/
def beyond : Allocator where
  malloc _ s := some (s.sup id+1)
  fresh _ _ _ h hs := absurd (Finset.le_sup (f := id) (Option.some.inj h ▸ hs))
    (Nat.not_succ_le_self _)

/-- A name is declared again in an inner scope. -/
def shadowing : List Command := [.addDecVar ⟨⟨.VarInt,0⟩,"x",0⟩,.enterScope,
  .addParam ⟨⟨.VarFloat,0⟩,"x",1⟩,.leaveScope]

theorem not_refuses_beyond : ¬ beyond.Refuses := by
  rintro ⟨n,s,h⟩
  cases h

theorem shadowing_restores : ∃ s, run beyond shadowing = .ok s ∧
    (∀ id, ∃ q, find s.mem s.table id = .ok q ∧
      Shows s.mem q ((declared shadowing).find id)) ∧
    (∀ id, ∃ q, findCurrentScope s.mem s.table id = .ok q ∧
      Shows s.mem q ((declared shadowing).current id)) ∧
    ∀ l₁ inner, shadowing = l₁++.enterScope::inner++[.leaveScope] → depth 0 inner = some 0 →
      ∃ s₁, run beyond l₁ = .ok s₁ ∧ s.Same s₁ :=
  (table_is_stack beyond shadowing rfl (newNames_of_newOn beyond rfl (by decide))).resolve_left
    fun h => not_refuses_beyond h.1

end Stack
end PucRio.Monga.Scopes
