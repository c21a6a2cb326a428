import PucRio.Lib.BoundedBypass
import PucRio.Lib.TransitionSystem
import Mathlib.Algebra.Order.Ring.Int
import Mathlib.Data.List.GetD
import Mathlib.Logic.Function.Basic

/-! The round robin of the scheduler. The list of processes has a slot for each, the search for the next
one starts behind the slot of the one that runs, and the signal that adds a process can come at any
time. The order in which the processes are waiting is that of their slots behind the one that runs. It
is kept while they take turns; when a process ends the search starts at the first slot again. -/
namespace PucRio.Escalonador.RoundRobin

/-- The state of the main loop: -1 is a free slot, and the index where no process runs. While it sleeps
there is a process chosen. -/
structure Estado where
  PIDList : List ℤ
  idxProcessoExecutando : ℤ
  processoAExecutar : Option ℕ
  deriving DecidableEq, Repr

inductive Acao
  | adicionarProcesso (pid : ℤ)
  | escolhe
  | acorda (terminou : Bool)
  deriving DecidableEq, Repr

/-- The first slot from `i` on with a process. -/
def proximo (PIDList : List ℤ) (i : ℕ) : Option ℕ :=
  ((PIDList.drop i).findIdx? (· ≠ -1)).map (·+i)

/-- The first process behind the one that runs, else the first of all. -/
def obtemProcessoAExecutar (s : Estado) : Option ℕ :=
  (proximo s.PIDList (s.idxProcessoExecutando+1).toNat).or (proximo s.PIDList 0)

/-- The first free slot is for the new process; with none it is not added. -/
def adicionarProcesso (pid : ℤ) (PIDList : List ℤ) : List ℤ :=
  ((PIDList.findIdx? (· = -1)).map (PIDList.set · pid)).getD PIDList

/-- The process in a slot. -/
def pid (PIDList : List ℤ) (i : ℕ) : ℤ := PIDList.getD i (-1)

/-- `PIDList[i][0]`; what stands before the list is read at the index -1. -/
def pidEm (antes : ℤ) (PIDList : List ℤ) (i : ℤ) : ℤ := if i < 0 then antes else pid PIDList i.toNat

/-- The process that runs has ended and is removed from the list. -/
def remove (s : Estado) : Estado where
  PIDList := s.PIDList.set s.idxProcessoExecutando.toNat (-1)
  idxProcessoExecutando := -1
  processoAExecutar := none

/-- The process chosen runs from here on, if it is not the one that does. -/
def troca (antes : ℤ) (s : Estado) (processoAExecutar : ℕ) : Estado where
  PIDList := s.PIDList
  idxProcessoExecutando :=
    if pidEm antes s.PIDList s.idxProcessoExecutando ≠ pidEm antes s.PIDList processoAExecutar then
      processoAExecutar
    else s.idxProcessoExecutando
  processoAExecutar := none

def step (antes : ℤ) (s : Estado) : Acao → Option Estado
  | .adicionarProcesso pid =>
    if pid = -1 ∨ pid ∈ s.PIDList then none
    else some { s with PIDList := adicionarProcesso pid s.PIDList }
  | .escolhe =>
    if s.processoAExecutar = none then some { s with processoAExecutar := obtemProcessoAExecutar s }
    else none
  | .acorda terminou => s.processoAExecutar.map fun processoAExecutar =>
    if s.idxProcessoExecutando ≠ -1 ∧ terminou = true then remove s
    else troca antes s processoAExecutar

/-- The loop, with as many slots as the list has. -/
def escalonador (NUMPROCESSOS : ℕ) (antes : ℤ) : TransitionSystem Estado Acao where
  init := ⟨List.replicate NUMPROCESSOS (-1),-1,none⟩
  step := step antes

/-- A process has come, if there was a slot for it. -/
def chegada (s : Estado) (pid : ℤ) : List (TurnEvent ℤ) :=
  if -1 ∈ s.PIDList then [.arrives pid] else []

/-- What happens, a turn being that the process is chosen. -/
def escolhas (s : Estado) : Acao → List (TurnEvent ℤ)
  | .adicionarProcesso pid => chegada s pid
  | .escolhe => (obtemProcessoAExecutar s).elim [] fun c => [.turn (pid s.PIDList c)]
  | .acorda terminou =>
    if s.idxProcessoExecutando ≠ -1 ∧ terminou = true then
      [.leaves (pid s.PIDList s.idxProcessoExecutando.toNat)]
    else []

/-- What happens, a turn being that the process chosen is left running. -/
def execucoes (antes : ℤ) (s : Estado) : Acao → List (TurnEvent ℤ)
  | .adicionarProcesso pid => chegada s pid
  | .escolhe => []
  | .acorda terminou =>
    if s.idxProcessoExecutando ≠ -1 ∧ terminou = true then
      [.leaves (pid s.PIDList s.idxProcessoExecutando.toNat)]
    else s.processoAExecutar.elim [] fun c =>
      if (troca antes s c).idxProcessoExecutando = c then [.turn (pid s.PIDList c)] else []

open TurnEvent

/-- From behind the cursor on, and round, `b` comes before `a`. -/
def Before (cursor : ℤ) (b a : ℕ) : Prop :=
  (b < a ∧ (cursor < b ∨ a ≤ cursor)) ∨ (a ≤ cursor ∧ cursor < b)

/-- The slots and the history: who waits comes before whom he waits for. -/
structure Ordenado (cursor : ℤ) (slot : ℕ → ℤ) (log : List (TurnEvent ℤ)) : Prop where
  alive : ∀ q, Alive log q ↔ q ≠ -1 ∧ ∃ i, slot i = q
  distinct : ∀ i j, slot i ≠ -1 → slot i = slot j → i = j
  there : ∀ p q, Waits log p q → Alive log p
  order : ∀ a b, slot a ≠ -1 → slot b ≠ -1 → Waits log (slot a) (slot b) → Before cursor b a
  fair : Fair log

namespace Ordenado
variable {cursor : ℤ} {slot : ℕ → ℤ} {log : List (TurnEvent ℤ)} {x : ℤ} {c : ℕ}

theorem nil (h : ∀ i, slot i = -1) : Ordenado (-1) slot [] where
  alive q := by
    refine ⟨fun h => absurd h not_alive_nil,?_⟩
    rintro ⟨hq,i,rfl⟩
    exact absurd (h i) hq
  distinct i j hi := absurd (h i) hi
  there p q h := absurd h not_waits_nil
  order a b ha := absurd (h a) ha
  fair := fair_nil

/-- Nobody waits for a process that has just come, nor has it waited. -/
theorem arrives {k : ℕ} (h : Ordenado cursor slot log) (hk : slot k = -1) (hx : x ≠ -1)
    (hnew : ∀ i, slot i ≠ x) : Ordenado cursor (Function.update slot k x) (log++[.arrives x]) := by
  have hslot {i : ℕ} (hi : i ≠ k) : Function.update slot k x i = slot i :=
    Function.update_of_ne hi x slot
  have hself : Function.update slot k x k = x := Function.update_self k x slot
  have hnot : ¬ Alive log x := fun hx => by
    obtain ⟨-,i,hi⟩ := (h.alive x).mp hx
    exact hnew i hi
  refine ⟨fun q => ?_,fun i j hi hij => ?_,fun p q hpq => ?_,fun a b ha hb hab => ?_,?_⟩
  · rw [alive_arrives,h.alive]
    constructor
    · rintro (rfl | ⟨hq,i,rfl⟩)
      · exact ⟨hx,k,hself⟩
      · refine ⟨hq,i,hslot ?_⟩
        rintro rfl
        exact hq hk
    · rintro ⟨hq,i,rfl⟩
      by_cases hi : i = k
      · subst hi
        exact .inl hself
      · rw [hslot hi] at hq ⊢
        exact .inr ⟨hq,i,rfl⟩
  · by_cases hik : i = k <;> by_cases hjk : j = k
    · exact hik.trans hjk.symm
    · rw [hik,hself,hslot hjk] at hij
      exact absurd hij.symm (hnew j)
    · rw [hjk,hself,hslot hik] at hij
      exact absurd hij (hnew i)
    · rw [hslot hik] at hi hij
      rw [hslot hjk] at hij
      exact h.distinct i j hi hij
  · exact alive_arrives.mpr (.inr (h.there p q (waits_arrives.mp hpq)))
  · rw [waits_arrives] at hab
    by_cases hak : a = k
    · rw [hak,hself] at hab
      exact absurd (h.there _ _ hab) hnot
    · by_cases hbk : b = k
      · rw [hbk,hself] at hab
        exact absurd hab.alive hnot
      · rw [hslot hak] at ha hab
        rw [hslot hbk] at hb hab
        exact h.order a b ha hb hab
  · exact fair_arrives.mpr h.fair

/-- The turn of a process that is preceded by none that has been waiting: it comes last then. -/
theorem turn (h : Ordenado cursor slot log) (hc : slot c ≠ -1)
    (hfirst : ∀ b, slot b ≠ -1 → Before cursor b c → ∀ p, ¬ Waits log p (slot b)) :
    Ordenado c slot (log++[.turn (slot c)]) := by
  have hcalive : Alive log (slot c) := (h.alive _).mpr ⟨hc,c,rfl⟩
  refine ⟨fun q => alive_turn.trans (h.alive q),h.distinct,fun p q hpq => alive_turn.mpr ?_,
    fun a b ha hb hab => ?_,fair_snoc.mpr ⟨h.fair,fun p hp q hpq => ?_⟩⟩
  · obtain ⟨-,⟨heq,-⟩ | ⟨hwaits,-⟩⟩ := waits_snoc.mp hpq
    · obtain rfl := TurnEvent.turn.inj heq
      exact hcalive
    · exact h.there p q hwaits
  · obtain ⟨hne,⟨heq,-⟩ | ⟨hwaits,-,-,hturn⟩⟩ := waits_snoc.mp hab
    · obtain rfl := h.distinct c a hc (TurnEvent.turn.inj heq)
      have : b ≠ c := fun hbc => hne (by rw [hbc])
      unfold Before
      omega
    · have hbc : b ≠ c := fun hbc => hturn (by rw [hbc])
      have hnot : ¬ Before cursor b c := fun hbefore => hfirst b hb hbefore _ hwaits
      have hba := h.order a b ha hb hwaits
      unfold Before at hnot hba ⊢
      omega
  · obtain rfl := TurnEvent.turn.inj hp
    obtain ⟨hq,b,rfl⟩ := (h.alive q).mp hpq.alive
    exact hfirst b hq (h.order c b hc hq hpq) _ hpq

/-- The search starts at the first slot where that is the order already. -/
theorem reset (h : Ordenado cursor slot log)
    (horder : ∀ a b, slot a ≠ -1 → slot b ≠ -1 → Before cursor b a → b < a) :
    Ordenado (-1) slot log :=
  ⟨h.alive,h.distinct,h.there,fun a b ha hb hab =>
    .inl ⟨horder a b ha hb (h.order a b ha hb hab),.inl (by omega)⟩,h.fair⟩

/-- The others stay in their order. -/
theorem leaves (h : Ordenado cursor slot log) (k : ℕ) :
    Ordenado cursor (Function.update slot k (-1)) (log++[.leaves (slot k)]) := by
  have hslot {i : ℕ} (hi : i ≠ k) : Function.update slot k (-1) i = slot i :=
    Function.update_of_ne hi (-1) slot
  have hself : Function.update slot k (-1) k = -1 := Function.update_self k (-1) slot
  have hlive {i : ℕ} (hi : Function.update slot k (-1) i ≠ -1) : i ≠ k ∧ slot i ≠ -1 := by
    have hik : i ≠ k := fun hik => hi (hik ▸ hself)
    exact ⟨hik,hslot hik ▸ hi⟩
  refine ⟨fun q => ?_,fun i j hi hij => ?_,fun p q hpq => ?_,fun a b ha hb hab => ?_,
    fair_leaves.mpr h.fair⟩
  · rw [alive_leaves,h.alive]
    constructor
    · rintro ⟨⟨hq,i,rfl⟩,hne⟩
      exact ⟨hq,i,hslot fun hik => hne (by rw [hik])⟩
    · rintro ⟨hq,i,rfl⟩
      obtain ⟨hik,hi⟩ := hlive hq
      rw [hslot hik]
      exact ⟨⟨hi,i,rfl⟩,fun heq => hik (h.distinct i k hi heq)⟩
  · have hj : Function.update slot k (-1) j ≠ -1 := hij ▸ hi
    rw [hslot (hlive hi).1,hslot (hlive hj).1] at hij
    exact h.distinct i j (hlive hi).2 hij
  · obtain ⟨hpq,hne,-⟩ := waits_leaves.mp hpq
    exact alive_leaves.mpr ⟨h.there p q hpq,hne⟩
  · obtain ⟨hak,ha⟩ := hlive ha
    obtain ⟨hbk,hb⟩ := hlive hb
    rw [hslot hak,hslot hbk] at hab
    exact h.order a b ha hb (waits_leaves.mp hab).1

end Ordenado

section List
variable {l : List ℤ} {i k c : ℕ} {x : ℤ}

theorem mem_of_pid (h : pid l i ≠ -1) : pid l i ∈ l := by
  rw [pid,List.getD_eq_getElem?_getD] at h ⊢
  cases hi : l[i]? with
  | none => exact absurd (by rw [hi]; rfl) h
  | some y => exact List.mem_of_getElem? hi

theorem pid_set (hk : k < l.length) : pid (l.set k x) = Function.update (pid l) k x := by
  funext i
  rw [pid,List.getD_eq_getElem?_getD]
  by_cases hi : i = k
  · rw [hi,List.getElem?_set_self hk,Function.update_self]
    rfl
  · rw [List.getElem?_set_ne (Ne.symm hi),Function.update_of_ne hi,pid,List.getD_eq_getElem?_getD]

theorem lt_of_pid (h : pid l i ≠ -1) : i < l.length := by
  by_contra hi
  exact h (List.getD_eq_default _ _ (not_lt.mp hi))

/-- Where there is a free slot the new process goes there. -/
theorem adicionarProcesso_eq (h : -1 ∈ l) :
    ∃ k, pid l k = -1 ∧ pid (adicionarProcesso x l) = Function.update (pid l) k x := by
  cases hk : l.findIdx? (· = -1) with
  | none =>
    have := List.findIdx?_eq_none_iff.mp hk (-1) h
    simp at this
  | some k =>
    obtain ⟨hlt,hfree,-⟩ := List.findIdx?_eq_some_iff_getElem.mp hk
    refine ⟨k,?_,?_⟩
    · rw [pid,List.getD_eq_getElem _ _ hlt]
      simpa using hfree
    · rw [adicionarProcesso,hk]
      exact pid_set hlt

theorem adicionarProcesso_eq_self (h : -1 ∉ l) : adicionarProcesso x l = l := by
  have hk : l.findIdx? (· = -1) = none := by
    rw [List.findIdx?_eq_none_iff]
    intro y hy
    simpa using fun heq : y = -1 => h (heq ▸ hy)
  rw [adicionarProcesso,hk]
  rfl

theorem proximo_eq_some (h : proximo l i = some c) :
    i ≤ c ∧ pid l c ≠ -1 ∧ ∀ j, i ≤ j → j < c → pid l j = -1 := by
  obtain ⟨k,hk,rfl⟩ := Option.map_eq_some_iff.mp h
  obtain ⟨hlt,hlive,hfree⟩ := List.findIdx?_eq_some_iff_getElem.mp hk
  rw [List.length_drop] at hlt
  have hget {j : ℕ} (hj : i+j < l.length) : pid l (i+j) = l[i+j] := List.getD_eq_getElem _ _ hj
  refine ⟨by omega,?_,fun j hij hj => ?_⟩
  · rw [add_comm,hget (by omega)]
    simpa [List.getElem_drop] using hlive
  · obtain ⟨m,rfl⟩ := Nat.exists_eq_add_of_le hij
    rw [hget (by omega)]
    simpa [List.getElem_drop] using hfree m (by omega)

theorem proximo_eq_none (h : proximo l i = none) {j : ℕ} (hj : i ≤ j) : pid l j = -1 := by
  by_contra hlive
  obtain ⟨m,rfl⟩ := Nat.exists_eq_add_of_le hj
  have hlt := lt_of_pid hlive
  have hall := List.findIdx?_eq_none_iff.mp (Option.map_eq_none_iff.mp h)
  have hmem : pid l (i+m) ∈ l.drop i := by
    rw [pid,List.getD_eq_getElem _ _ hlt]
    exact List.mem_of_getElem? (i := m) (by rw [List.getElem?_drop,List.getElem?_eq_getElem hlt])
  have := hall _ hmem
  simp [hlive] at this

end List

/-- Nobody comes before the process that is chosen. -/
theorem obtem_eq_some {s : Estado} {c : ℕ} (hidx : -1 ≤ s.idxProcessoExecutando)
    (h : obtemProcessoAExecutar s = some c) : pid s.PIDList c ≠ -1 ∧
      ∀ b, pid s.PIDList b ≠ -1 → ¬ Before s.idxProcessoExecutando b c := by
  rw [obtemProcessoAExecutar] at h
  cases hnext : proximo s.PIDList (s.idxProcessoExecutando+1).toNat with
  | some k =>
    rw [hnext,Option.some_or] at h
    obtain rfl := Option.some.inj h
    obtain ⟨hle,hlive,hfree⟩ := proximo_eq_some hnext
    refine ⟨hlive,fun b hb hbefore => hb (hfree b ?_ ?_)⟩ <;> unfold Before at hbefore <;> omega
  | none =>
    rw [hnext,Option.none_or] at h
    obtain ⟨-,hlive,hfree⟩ := proximo_eq_some h
    refine ⟨hlive,fun b hb hbefore => ?_⟩
    by_cases hlt : b < c
    · exact hb (hfree b (Nat.zero_le b) hlt)
    · refine hb (proximo_eq_none hnext ?_)
      unfold Before at hbefore
      omega

/-- The process that runs and the one chosen are in the list. -/
structure Valido (s : Estado) : Prop where
  idx_ge : -1 ≤ s.idxProcessoExecutando
  executando : 0 ≤ s.idxProcessoExecutando → pid s.PIDList s.idxProcessoExecutando.toNat ≠ -1
  escolhido : ∀ c, s.processoAExecutar = some c → pid s.PIDList c ≠ -1

section Steps
variable {antes cursor x : ℤ} {s t : Estado} {log : List (TurnEvent ℤ)} {c : ℕ}

theorem pid_adicionarProcesso {l : List ℤ} {i : ℕ} (h : pid l i ≠ -1) :
    pid (adicionarProcesso x l) i = pid l i := by
  by_cases hfree : -1 ∈ l
  · obtain ⟨k,hk,heq⟩ := adicionarProcesso_eq (x := x) hfree
    rw [heq,Function.update_of_ne]
    rintro rfl
    exact h hk
  · rw [adicionarProcesso_eq_self hfree]

/-- A slot is as it was, or the new process has it. -/
theorem pid_adicionarProcesso_or (x : ℤ) (l : List ℤ) (i : ℕ) :
    pid (adicionarProcesso x l) i = pid l i ∨ pid (adicionarProcesso x l) i = x := by
  by_cases hfree : -1 ∈ l
  · obtain ⟨k,-,heq⟩ := adicionarProcesso_eq (x := x) hfree
    rw [heq]
    by_cases hi : i = k
    · rw [hi]
      exact .inr (Function.update_self k x (pid l))
    · exact .inl (Function.update_of_ne hi _ _)
  · exact .inl (by rw [adicionarProcesso_eq_self hfree])

theorem waits_chegada {p q : ℤ} : Waits (log++chegada s x) p q ↔ Waits log p q := by
  unfold chegada
  split_ifs
  · exact waits_arrives
  · rw [List.append_nil]

theorem Valido.adiciona (h : Valido s) (x : ℤ) :
    Valido { s with PIDList := adicionarProcesso x s.PIDList } where
  idx_ge := h.idx_ge
  executando hidx := by
    rw [pid_adicionarProcesso (h.executando hidx)]
    exact h.executando hidx
  escolhido c hc := by
    rw [pid_adicionarProcesso (h.escolhido c hc)]
    exact h.escolhido c hc

theorem Valido.escolhe (h : Valido s) :
    Valido { s with processoAExecutar := obtemProcessoAExecutar s } :=
  ⟨h.idx_ge,h.executando,fun _ hc => (obtem_eq_some h.idx_ge hc).1⟩

theorem valido_remove (s : Estado) : Valido (remove s) :=
  ⟨le_rfl,fun h => absurd h (by simp [remove]),fun _ h => by cases h⟩

/-- The process chosen runs, or there is none that does. -/
theorem troca_idx (antes : ℤ) (h : Valido s) (hdistinct : ∀ i j, pid s.PIDList i ≠ -1 →
      pid s.PIDList i = pid s.PIDList j → i = j) (c : ℕ) :
    (troca antes s c).idxProcessoExecutando = c ∨
      (s.idxProcessoExecutando = -1 ∧ (troca antes s c).idxProcessoExecutando = -1) := by
  unfold troca
  dsimp only
  split_ifs with hne
  · exact .inl rfl
  · have hge := h.idx_ge
    rw [not_not,pidEm,pidEm,if_neg (by omega : ¬ (c : ℤ) < 0),Int.toNat_natCast] at hne
    by_cases hidx : s.idxProcessoExecutando < 0
    · exact .inr ⟨by omega,by omega⟩
    · rw [if_neg hidx] at hne
      have := hdistinct _ _ (h.executando (by omega)) hne
      omega

theorem Valido.troca (h : Valido s) (hdistinct : ∀ i j, pid s.PIDList i ≠ -1 →
      pid s.PIDList i = pid s.PIDList j → i = j) (hc : s.processoAExecutar = some c) :
    Valido (troca antes s c) := by
  have hlive := h.escolhido c hc
  obtain hidx | ⟨-,hidx⟩ := troca_idx antes h hdistinct c
  · refine ⟨by omega,fun _ => ?_,fun _ h => by cases h⟩
    rw [hidx]
    exact hlive
  · refine ⟨by omega,fun h => ?_,fun _ h => by cases h⟩
    omega

theorem Ordenado.adiciona (h : Ordenado cursor (pid s.PIDList) log) (hx : x ≠ -1)
    (hnew : x ∉ s.PIDList) :
    Ordenado cursor (pid (adicionarProcesso x s.PIDList)) (log++chegada s x) := by
  unfold chegada
  split_ifs with hfree
  · obtain ⟨k,hk,heq⟩ := adicionarProcesso_eq (x := x) hfree
    rw [heq]
    refine h.arrives hk hx fun i hi => hnew ?_
    rw [← hi]
    exact mem_of_pid (hi ▸ hx)
  · rw [adicionarProcesso_eq_self hfree,List.append_nil]
    exact h

theorem Ordenado.remove (hs : Valido s) (h : Ordenado cursor (pid s.PIDList) log)
    (hidx : s.idxProcessoExecutando ≠ -1)
    (horder : ∀ a b, pid s.PIDList a ≠ -1 → pid s.PIDList b ≠ -1 →
      (a : ℤ) ≠ s.idxProcessoExecutando → (b : ℤ) ≠ s.idxProcessoExecutando →
      Before cursor b a → b < a) :
    Ordenado (-1) (pid (remove s).PIDList)
      (log++[.leaves (pid s.PIDList s.idxProcessoExecutando.toNat)]) := by
  have hge := hs.idx_ge
  have hlive := hs.executando (by omega)
  have heq : pid (RoundRobin.remove s).PIDList =
      Function.update (pid s.PIDList) s.idxProcessoExecutando.toNat (-1) :=
    pid_set (lt_of_pid hlive)
  rw [heq]
  refine (h.leaves _).reset fun a b ha hb => ?_
  have hne {i : ℕ}
      (hi : Function.update (pid s.PIDList) s.idxProcessoExecutando.toNat (-1) i ≠ -1) :
      pid s.PIDList i ≠ -1 ∧ (i : ℤ) ≠ s.idxProcessoExecutando := by
    have hik : i ≠ s.idxProcessoExecutando.toNat := by
      rintro rfl
      exact hi (Function.update_self _ _ _)
    rw [Function.update_of_ne hik] at hi
    exact ⟨hi,by omega⟩
  exact horder a b (hne ha).1 (hne hb).1 (hne ha).2 (hne hb).2

end Steps

/-- A process chosen that is not left running is the last in the list, but for one that has ended. -/
def EscolhaNoFim (antes : ℤ) (s : Estado) : Acao → Prop
  | .acorda terminou => ∀ c ∈ s.processoAExecutar,
      ((s.idxProcessoExecutando ≠ -1 ∧ terminou = true) ∨
        (troca antes s c).idxProcessoExecutando ≠ c) →
      ∀ j < s.PIDList.length, pid s.PIDList j ≠ -1 → (j : ℤ) ≠ s.idxProcessoExecutando → j ≤ c
  | _ => True

/-- Where the process that runs has ended, all others are behind it in the list, or all before. -/
def FimNaBorda (s : Estado) : Acao → Prop
  | .acorda terminou => s.idxProcessoExecutando ≠ -1 ∧ terminou = true →
      (∀ j < s.PIDList.length, pid s.PIDList j ≠ -1 → (j : ℤ) ≠ s.idxProcessoExecutando →
        s.idxProcessoExecutando < j) ∨
      (∀ j < s.PIDList.length, pid s.PIDList j ≠ -1 → (j : ℤ) ≠ s.idxProcessoExecutando →
        j < s.idxProcessoExecutando)
  | _ => True

section Choices
variable {antes : ℤ} {s t : Estado} {log : List (TurnEvent ℤ)} {a : Acao}

/-- The slot of the process chosen last. -/
def cursor (s : Estado) : ℤ := s.processoAExecutar.elim s.idxProcessoExecutando (↑)

/-- By their choices. -/
def Escolhidos (x : Estado × List (TurnEvent ℤ)) : Prop :=
  Valido x.1 ∧ Ordenado (cursor x.1) (pid x.1.PIDList) x.2

theorem Escolhidos.step (h : Escolhidos (s,log)) (hguard : EscolhaNoFim antes s a)
    (hstep : RoundRobin.step antes s a = some t) : Escolhidos (t,log++escolhas s a) := by
  dsimp only [Escolhidos] at h
  obtain ⟨hs,ho⟩ := h
  cases a with
  | adicionarProcesso x =>
    rw [RoundRobin.step] at hstep
    split_ifs at hstep with hx
    obtain rfl := Option.some.inj hstep
    rw [not_or] at hx
    exact ⟨hs.adiciona x,ho.adiciona hx.1 hx.2⟩
  | escolhe =>
    rw [RoundRobin.step] at hstep
    split_ifs at hstep with hnone
    obtain rfl := Option.some.inj hstep
    refine ⟨hs.escolhe,?_⟩
    have hcursor : cursor s = s.idxProcessoExecutando := by
      rw [cursor,hnone]
      rfl
    rw [hcursor] at ho
    cases hc : obtemProcessoAExecutar s with
    | none =>
      simp only [escolhas,cursor,hc,Option.elim_none,List.append_nil]
      exact ho
    | some c =>
      obtain ⟨hlive,hfirst⟩ := obtem_eq_some hs.idx_ge hc
      simp only [escolhas,cursor,hc,Option.elim_some]
      exact ho.turn hlive fun b hb hbefore => absurd hbefore (hfirst b hb)
  | acorda terminou =>
    obtain ⟨c,hc,rfl⟩ := Option.map_eq_some_iff.mp hstep
    have hcursor : cursor s = c := by
      rw [cursor,hc]
      rfl
    rw [hcursor] at ho
    have hlast := hguard c hc
    simp only [escolhas]
    split_ifs with hended
    · refine ⟨valido_remove s,ho.remove hs hended.1 fun a b ha hb hane hbne hbefore => ?_⟩
      have := hlast (.inl hended) b (lt_of_pid hb) hb hbne
      unfold Before at hbefore
      omega
    · rw [List.append_nil]
      refine ⟨hs.troca ho.distinct hc,?_⟩
      change Ordenado (troca antes s c).idxProcessoExecutando (pid s.PIDList) log
      obtain hidx | ⟨hidx,hidx'⟩ := troca_idx antes hs ho.distinct c
      · rw [hidx]
        exact ho
      · rw [hidx']
        refine ho.reset fun a b ha hb hbefore => ?_
        have := hlast (.inr (by rw [hidx']; omega)) b (lt_of_pid hb) hb (by rw [hidx]; omega)
        unfold Before at hbefore
        omega

end Choices

section Runs
variable {antes : ℤ} {s t : Estado} {log : List (TurnEvent ℤ)} {a : Acao}

/-- By their runs. Those that come while the scheduler sleeps may have slots before that of the process
chosen, but none of them has been waiting. -/
def Executados (x : Estado × List (TurnEvent ℤ)) : Prop :=
  Valido x.1 ∧ Ordenado x.1.idxProcessoExecutando (pid x.1.PIDList) x.2 ∧
    ∀ c, x.1.processoAExecutar = some c → ∀ b, pid x.1.PIDList b ≠ -1 →
      Before x.1.idxProcessoExecutando b c → ∀ p, ¬ Waits x.2 p (pid x.1.PIDList b)

theorem Executados.step (h : Executados (s,log)) (hguard : FimNaBorda s a)
    (hstep : RoundRobin.step antes s a = some t) : Executados (t,log++execucoes antes s a) := by
  dsimp only [Executados] at h
  obtain ⟨hs,ho,hfirst⟩ := h
  cases a with
  | adicionarProcesso x =>
    rw [RoundRobin.step] at hstep
    split_ifs at hstep with hx
    obtain rfl := Option.some.inj hstep
    rw [not_or] at hx
    refine ⟨hs.adiciona x,ho.adiciona hx.1 hx.2,fun c hc b hb hbefore p hwaits => ?_⟩
    replace hwaits := waits_chegada.mp hwaits
    obtain heq | heq := pid_adicionarProcesso_or x s.PIDList b
    · rw [heq] at hb hwaits
      exact hfirst c hc b hb hbefore p hwaits
    · rw [heq] at hwaits
      obtain ⟨-,i,hi⟩ := (ho.alive x).mp hwaits.alive
      exact hx.2 (hi ▸ mem_of_pid (hi ▸ hx.1))
  | escolhe =>
    rw [RoundRobin.step] at hstep
    split_ifs at hstep with hnone
    obtain rfl := Option.some.inj hstep
    simp only [execucoes,List.append_nil]
    exact ⟨hs.escolhe,ho,fun c hc b hb hbefore => absurd hbefore ((obtem_eq_some hs.idx_ge hc).2 b hb)⟩
  | acorda terminou =>
    obtain ⟨c,hc,rfl⟩ := Option.map_eq_some_iff.mp hstep
    have hlive := hs.escolhido c hc
    simp only [execucoes,hc,Option.elim_some]
    split_ifs with hended hruns
    · refine ⟨valido_remove s,ho.remove hs hended.1 fun a b ha hb hane hbne hbefore => ?_,
        fun _ h => by cases h⟩
      unfold Before at hbefore
      obtain hall | hall := hguard hended
      · have := hall a (lt_of_pid ha) ha hane
        have := hall b (lt_of_pid hb) hb hbne
        omega
      · have := hall a (lt_of_pid ha) ha hane
        have := hall b (lt_of_pid hb) hb hbne
        omega
    · refine ⟨hs.troca ho.distinct hc,?_,fun _ h => by cases h⟩
      rw [hruns]
      exact ho.turn hlive (hfirst c hc)
    · rw [List.append_nil]
      refine ⟨hs.troca ho.distinct hc,?_,fun _ h => by cases h⟩
      obtain hidx | ⟨hidx,hidx'⟩ := troca_idx antes hs ho.distinct c
      · exact absurd hidx hruns
      · rw [hidx',← hidx]
        exact ho

end Runs

section Main
variable (NUMPROCESSOS : ℕ) (antes : ℤ)

theorem pid_replicate (i : ℕ) : pid (List.replicate NUMPROCESSOS (-1)) i = -1 := by
  by_contra h
  exact h (List.eq_of_mem_replicate (mem_of_pid h))

theorem ordenado_init :
    Ordenado (-1) (pid (List.replicate NUMPROCESSOS (-1))) [] := .nil (pid_replicate NUMPROCESSOS)

theorem valido_init : Valido (escalonador NUMPROCESSOS antes).init :=
  ⟨le_rfl,fun h => absurd h (by simp [escalonador]),fun _ h => by cases h⟩

/-- No process is chosen twice while another has been waiting, in every run in which each process
chosen and not left running is the last in the list; and none is left running twice while another has
been waiting, in every run in which each that ends has all others behind it or all before. -/
theorem fair_of_reachable :
    (∀ x, ((escalonador NUMPROCESSOS antes).recorded escolhas).ReachableUnder
      (fun x a => EscolhaNoFim antes x.1 a) x → Fair x.2) ∧
    ∀ x, ((escalonador NUMPROCESSOS antes).recorded (execucoes antes)).ReachableUnder
      (fun x a => FimNaBorda x.1 a) x → Fair x.2 := by
  constructor
  · intro x hx
    have h : Escolhidos x := by
      refine hx.invariant ⟨valido_init NUMPROCESSOS antes,ordenado_init NUMPROCESSOS⟩ ?_
      rintro ⟨s,log⟩ a ⟨t,log'⟩ hs hguard hstep
      obtain ⟨hstep,rfl⟩ := TransitionSystem.recorded_step hstep
      exact hs.step hguard hstep
    exact h.2.fair
  · intro x hx
    have h : Executados x := by
      refine hx.invariant ⟨valido_init NUMPROCESSOS antes,ordenado_init NUMPROCESSOS,
        fun _ h => by cases h⟩ ?_
      rintro ⟨s,log⟩ a ⟨t,log'⟩ hs hguard hstep
      obtain ⟨hstep,rfl⟩ := TransitionSystem.recorded_step hstep
      exact hs.step hguard hstep
    exact h.2.1.fair

end Main

section Witness

scoped instance (antes : ℤ) (s : Estado) (a : Acao) : Decidable (EscolhaNoFim antes s a) :=
  match a with
  | .acorda terminou => inferInstanceAs (Decidable (∀ c ∈ s.processoAExecutar,
      ((s.idxProcessoExecutando ≠ -1 ∧ terminou = true) ∨
        (troca antes s c).idxProcessoExecutando ≠ c) →
      ∀ j < s.PIDList.length, pid s.PIDList j ≠ -1 → (j : ℤ) ≠ s.idxProcessoExecutando → j ≤ c))
  | .adicionarProcesso _ => isTrue trivial
  | .escolhe => isTrue trivial

scoped instance (s : Estado) (a : Acao) : Decidable (FimNaBorda s a) :=
  match a with
  | .acorda terminou => inferInstanceAs (Decidable (s.idxProcessoExecutando ≠ -1 ∧ terminou = true →
      (∀ j < s.PIDList.length, pid s.PIDList j ≠ -1 → (j : ℤ) ≠ s.idxProcessoExecutando →
        s.idxProcessoExecutando < j) ∨
      (∀ j < s.PIDList.length, pid s.PIDList j ≠ -1 → (j : ℤ) ≠ s.idxProcessoExecutando →
        j < s.idxProcessoExecutando)))
  | .adicionarProcesso _ => isTrue trivial
  | .escolhe => isTrue trivial

/-- The first of two processes ends while the other is chosen. -/
def primeiroTermina : List Acao :=
  [.adicionarProcesso 10,.adicionarProcesso 11,.escolhe,.acorda false,.escolhe,.acorda true,
    .escolhe,.acorda false]

theorem fair_of_reachable_first : (∃ x, Fair x.2 ∧
      ((escalonador 3 0).recorded escolhas).ReachableUnder (fun x a => EscolhaNoFim 0 x.1 a) x ∧
      x.2 = [.arrives 10,.arrives 11,.turn 10,.turn 11,.leaves 10,.turn 11]) ∧
    ∃ x, Fair x.2 ∧
      ((escalonador 3 0).recorded (execucoes 0)).ReachableUnder (fun x a => FimNaBorda x.1 a) x ∧
      x.2 = [.arrives 10,.arrives 11,.turn 10,.leaves 10,.turn 11] := by
  constructor
  · obtain ⟨x,hx,hlog⟩ := TransitionSystem.exists_reachableUnder_of_execUnder
      (T := (escalonador 3 0).recorded escolhas) (G := fun x a => EscolhaNoFim 0 x.1 a)
      (l := primeiroTermina)
      (p := fun x => x.2 = [.arrives 10,.arrives 11,.turn 10,.turn 11,.leaves 10,.turn 11])
      (by decide)
    exact ⟨x,(fair_of_reachable 3 0).1 x hx,hx,of_decide_eq_true hlog⟩
  · obtain ⟨x,hx,hlog⟩ := TransitionSystem.exists_reachableUnder_of_execUnder
      (T := (escalonador 3 0).recorded (execucoes 0)) (G := fun x a => FimNaBorda x.1 a)
      (l := primeiroTermina)
      (p := fun x => x.2 = [.arrives 10,.arrives 11,.turn 10,.leaves 10,.turn 11]) (by decide)
    exact ⟨x,(fair_of_reachable 3 0).2 x hx,hx,of_decide_eq_true hlog⟩

/-- The second of four processes ends while the third is chosen, and the search starts again at the
first. -/
def segundoTermina : List Acao :=
  [.adicionarProcesso 10,.adicionarProcesso 11,.adicionarProcesso 12,.adicionarProcesso 13,
    .escolhe,.acorda false,.escolhe,.acorda false,.escolhe,.acorda true,.escolhe,.acorda false]

/-- The first process is chosen, and runs, twice, and the fourth is not in between. -/
theorem not_fair_second :
    (∃ x, ((escalonador 4 0).recorded escolhas).Reachable x ∧ ¬ Fair x.2) ∧
      ∃ x, ((escalonador 4 0).recorded (execucoes 0)).Reachable x ∧ ¬ Fair x.2 := by
  constructor
  · obtain ⟨x,hx,hlog⟩ := TransitionSystem.exists_reachable_of_exec
      (T := (escalonador 4 0).recorded escolhas) (l := segundoTermina)
      (p := fun x => x.2 = [.arrives 10,.arrives 11,.arrives 12,.arrives 13,.turn 10,.turn 11,
        .turn 12,.leaves 11,.turn 10]) (by decide)
    refine ⟨x,hx,fun hfair => hfair [.arrives 10,.arrives 11,.arrives 12,.arrives 13,.turn 10,
      .turn 11,.turn 12,.leaves 11] 10 [] (of_decide_eq_true hlog) 13 ⟨by decide,?_⟩⟩
    exact ⟨[.arrives 10,.arrives 11,.arrives 12,.arrives 13],[.turn 11,.turn 12,.leaves 11],rfl,
      ⟨[.arrives 10,.arrives 11,.arrives 12],[],rfl,by decide⟩,by decide,by decide,by decide⟩
  · obtain ⟨x,hx,hlog⟩ := TransitionSystem.exists_reachable_of_exec
      (T := (escalonador 4 0).recorded (execucoes 0)) (l := segundoTermina)
      (p := fun x => x.2 = [.arrives 10,.arrives 11,.arrives 12,.arrives 13,.turn 10,.turn 11,
        .leaves 11,.turn 10]) (by decide)
    refine ⟨x,hx,fun hfair => hfair [.arrives 10,.arrives 11,.arrives 12,.arrives 13,.turn 10,
      .turn 11,.leaves 11] 10 [] (of_decide_eq_true hlog) 13 ⟨by decide,?_⟩⟩
    exact ⟨[.arrives 10,.arrives 11,.arrives 12,.arrives 13],[.turn 11,.leaves 11],rfl,
      ⟨[.arrives 10,.arrives 11,.arrives 12],[],rfl,by decide⟩,by decide,by decide,by decide⟩

end Witness

end PucRio.Escalonador.RoundRobin
