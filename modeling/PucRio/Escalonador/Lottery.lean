import PucRio.Lib.CInt
import PucRio.Lib.WeightedDraw
import Mathlib.Algebra.BigOperators.Fin
import Mathlib.Algebra.Order.BigOperators.Group.Finset

/-! The lottery of the scheduler: the process to run next is that of a ticket drawn among those of the
processes in the list. -/
namespace PucRio.Escalonador.Lottery

/-- A slot of the list of processes: the PID, -1 where the process has finished or there is none, and
the number of tickets. -/
structure Slot where
  pid : ℤ
  numBilhetes : ℤ
  deriving DecidableEq, Repr

/-- What the selection returns: an index, or -1, with or without a message of error. -/
inductive Selecao
  | indice (i : ℕ)
  | nenhum
  | erro
  deriving DecidableEq, Repr

/-- The tickets to be handed out in all. -/
def qtdTotalBilhetes (PIDList : List Slot) : ℤ :=
  PIDList.foldl (fun qtd slot => if slot.pid ≠ -1 then wrap32 (qtd+slot.numBilhetes) else qtd) 0

/-- The walk to the ticket drawn, from slot `i`. -/
def percorre (sorteio : ℤ) : ℤ → ℕ → List Slot → Option ℕ
  | _,_,[] => none
  | qtd,i,slot::l =>
    if slot.pid ≠ -1 then
      if sorteio ≤ wrap32 (qtd+slot.numBilhetes) then some i
      else percorre sorteio (wrap32 (qtd+slot.numBilhetes)) (i+1) l
    else percorre sorteio qtd (i+1) l

/-- `rand` is what `rand` gives. -/
def obtemProcessoAExecutar (PIDList : List Slot) (rand : ℕ) : Selecao :=
  if 0 < qtdTotalBilhetes PIDList then
    (percorre (rand%qtdTotalBilhetes PIDList+1) 0 0 PIDList).elim .erro .indice
  else .nenhum

/-- Of the values that can be drawn, those that select the slot. -/
def sorteios (PIDList : List Slot) (i : ℕ) : Finset ℕ :=
  (Finset.range (qtdTotalBilhetes PIDList).toNat).filter fun rand =>
    obtemProcessoAExecutar PIDList rand = .indice i

/-- Each process is selected by as many draws as it has tickets, and no draw selects a free slot or
none at all. -/
structure Proportional (PIDList : List Slot) : Prop where
  live : ∀ i slot, PIDList[i]? = some slot → slot.pid ≠ -1 →
    ((sorteios PIDList i).card : ℤ) = slot.numBilhetes
  free : ∀ i slot rand, PIDList[i]? = some slot → slot.pid = -1 →
    obtemProcessoAExecutar PIDList rand ≠ .indice i
  noError : ∀ rand, obtemProcessoAExecutar PIDList rand ≠ .erro

/-- The tickets that take part in the draw. -/
def Slot.bilhetes (slot : Slot) : ℕ := if slot.pid ≠ -1 then slot.numBilhetes.toNat else 0

def bilhetes (PIDList : List Slot) : List ℕ := PIDList.map Slot.bilhetes

section Walk
variable {PIDList l : List Slot} {slot : Slot} {i rand : ℕ} {qtd sorteio : ℤ}

theorem bilhetes_of_live (h : slot.pid ≠ -1) (hpos : 0 < slot.numBilhetes) :
    (slot.bilhetes : ℤ) = slot.numBilhetes := by
  rw [Slot.bilhetes,if_pos h]
  omega

theorem bilhetes_of_free (h : slot.pid = -1) : slot.bilhetes = 0 :=
  if_neg (not_not.mpr h)

theorem getElem?_bilhetes (h : PIDList[i]? = some slot) :
    (bilhetes PIDList)[i]? = some slot.bilhetes := by
  rw [bilhetes,List.getElem?_map,h]
  rfl

/-- While the sum fits, it is kept. -/
theorem foldl_eq (hpos : ∀ slot ∈ l, slot.pid ≠ -1 → 0 < slot.numBilhetes) (h0 : 0 ≤ qtd)
    (hfits : qtd+(bilhetes l).sum < 2^31) :
    l.foldl (fun qtd slot => if slot.pid ≠ -1 then wrap32 (qtd+slot.numBilhetes) else qtd) qtd =
      qtd+(bilhetes l).sum := by
  induction l generalizing qtd with
  | nil => exact (add_zero qtd).symm
  | cons slot l ih =>
    have hsum : (bilhetes (slot::l)).sum = slot.bilhetes+(bilhetes l).sum := List.sum_cons
    have hrest : ∀ slot ∈ l, slot.pid ≠ -1 → 0 < slot.numBilhetes :=
      fun s hs => hpos s (List.mem_cons_of_mem _ hs)
    rw [List.foldl_cons]
    by_cases hlive : slot.pid ≠ -1
    · have hb := bilhetes_of_live hlive (hpos slot List.mem_cons_self hlive)
      rw [if_pos hlive,wrap32_of_lt (by omega) (by omega),ih hrest (by omega) (by omega)]
      omega
    · have hb := bilhetes_of_free (not_not.mp hlive)
      rw [if_neg hlive,ih hrest h0 (by omega)]
      omega

theorem qtdTotalBilhetes_eq (hpos : ∀ slot ∈ PIDList, slot.pid ≠ -1 → 0 < slot.numBilhetes)
    (hfits : (bilhetes PIDList).sum < 2^31) : qtdTotalBilhetes PIDList = (bilhetes PIDList).sum := by
  rw [qtdTotalBilhetes,foldl_eq hpos le_rfl (by omega),zero_add]

/-- The walk is that of a draw among the tickets. -/
theorem percorre_eq (hpos : ∀ slot ∈ l, slot.pid ≠ -1 → 0 < slot.numBilhetes) (h0 : 0 ≤ qtd)
    (hfits : qtd+(bilhetes l).sum < 2^31) (hlt : qtd < sorteio) :
    percorre sorteio qtd i l = (drawn (bilhetes l) (sorteio-qtd).toNat).map (·+i) := by
  induction l generalizing qtd i with
  | nil => rfl
  | cons slot l ih =>
    have hsum : (bilhetes (slot::l)).sum = slot.bilhetes+(bilhetes l).sum := List.sum_cons
    have hrest : ∀ slot ∈ l, slot.pid ≠ -1 → 0 < slot.numBilhetes :=
      fun s hs => hpos s (List.mem_cons_of_mem _ hs)
    have hdrawn : drawn (bilhetes (slot::l)) (sorteio-qtd).toNat =
        if (sorteio-qtd).toNat ≤ slot.bilhetes then some 0
        else (drawn (bilhetes l) ((sorteio-qtd).toNat-slot.bilhetes)).map (·+1) := rfl
    have hshift (o : Option ℕ) : (o.map (·+1)).map (·+i) = o.map (·+(i+1)) := by
      rw [Option.map_map]
      congr 1
      funext k
      exact Nat.add_right_comm k 1 i
    rw [percorre,hdrawn]
    by_cases hlive : slot.pid ≠ -1
    · have hb := bilhetes_of_live hlive (hpos slot List.mem_cons_self hlive)
      rw [if_pos hlive,wrap32_of_lt (by omega) (by omega)]
      by_cases hle : sorteio ≤ qtd+slot.numBilhetes
      · rw [if_pos hle,if_pos (by omega),Option.map_some,zero_add]
      · rw [if_neg hle,if_neg (by omega),ih hrest (by omega) (by omega) (by omega),hshift]
        congr 2
        omega
    · have hb := bilhetes_of_free (not_not.mp hlive)
      rw [if_neg hlive,if_neg (by omega),ih hrest h0 (by omega) hlt,hshift,hb,Nat.sub_zero]

theorem obtem_eq (hpos : ∀ slot ∈ PIDList, slot.pid ≠ -1 → 0 < slot.numBilhetes)
    (hfits : (bilhetes PIDList).sum < 2^31) (hsum : 0 < (bilhetes PIDList).sum) (rand : ℕ) :
    obtemProcessoAExecutar PIDList rand =
      (drawn (bilhetes PIDList) (rand%(bilhetes PIDList).sum+1)).elim .erro .indice := by
  have hsorteio : (((rand : ℤ)%((bilhetes PIDList).sum : ℕ)+1-0).toNat) =
      rand%(bilhetes PIDList).sum+1 := by omega
  rw [obtemProcessoAExecutar,qtdTotalBilhetes_eq hpos hfits,if_pos (by omega),
    percorre_eq hpos le_rfl (by omega) (by omega),hsorteio]
  congr 1
  exact Option.map_id_fun' ▸ rfl

end Walk

section Main
variable {PIDList : List Slot} {slot : Slot} {i : ℕ}

/-- The tickets that are not handed out twice are no more than what the `int` says. -/
theorem sum_le_of_proportional (hpos : ∀ slot ∈ PIDList, slot.pid ≠ -1 → 0 < slot.numBilhetes)
    (h : Proportional PIDList) : (bilhetes PIDList).sum ≤ (qtdTotalBilhetes PIDList).toNat := by
  have hle (i : Fin PIDList.length) : PIDList[i].bilhetes ≤ (sorteios PIDList i).card := by
    have hi : PIDList[i.1]? = some PIDList[i] := List.getElem?_eq_getElem i.2
    by_cases hlive : PIDList[i].pid ≠ -1
    · have hb := bilhetes_of_live hlive (hpos _ (List.getElem_mem i.2) hlive)
      have := h.live i _ hi hlive
      omega
    · rw [bilhetes_of_free (not_not.mp hlive)]
      exact Nat.zero_le _
  have hdisjoint {i j : Fin PIDList.length} (hij : i ≠ j) :
      Disjoint (sorteios PIDList i) (sorteios PIDList j) := by
    rw [Finset.disjoint_left]
    intro rand hi hj
    have heq := (Finset.mem_filter.mp hi).2.symm.trans (Finset.mem_filter.mp hj).2
    exact hij (Fin.ext (Selecao.indice.inj heq))
  calc (bilhetes PIDList).sum = ∑ i : Fin PIDList.length, PIDList[i].bilhetes := by
        exact (Fin.sum_univ_fun_getElem PIDList Slot.bilhetes).symm
    _ ≤ ∑ i : Fin PIDList.length, (sorteios PIDList i).card := Finset.sum_le_sum fun i _ => hle i
    _ = (Finset.univ.biUnion fun i : Fin PIDList.length => sorteios PIDList i).card :=
        (Finset.card_biUnion fun _ _ _ _ hij => hdisjoint hij).symm
    _ ≤ (Finset.range (qtdTotalBilhetes PIDList).toNat).card := by
        apply Finset.card_le_card
        intro rand hrand
        obtain ⟨i,-,hi⟩ := Finset.mem_biUnion.mp hrand
        exact (Finset.mem_filter.mp hi).1
    _ = (qtdTotalBilhetes PIDList).toNat := Finset.card_range _

theorem qtdTotalBilhetes_lt (PIDList : List Slot) : qtdTotalBilhetes PIDList < 2^31 := by
  have hall (l : List Slot) (qtd : ℤ) (h : qtd < 2^31) :
      l.foldl (fun qtd slot => if slot.pid ≠ -1 then wrap32 (qtd+slot.numBilhetes) else qtd) qtd <
        2^31 := by
    induction l generalizing qtd with
    | nil => exact h
    | cons slot l ih =>
      rw [List.foldl_cons]
      apply ih
      split_ifs
      · exact wrap32_lt _
      · exact h
  exact hall PIDList 0 (by omega)

theorem proportional_of_sum_lt (hpos : ∀ slot ∈ PIDList, slot.pid ≠ -1 → 0 < slot.numBilhetes)
    (hfits : (bilhetes PIDList).sum < 2^31) : Proportional PIDList := by
  have htotal := qtdTotalBilhetes_eq hpos hfits
  obtain hzero | hsum := Nat.eq_zero_or_pos (bilhetes PIDList).sum
  · have hnenhum (rand : ℕ) : obtemProcessoAExecutar PIDList rand = .nenhum := by
      rw [obtemProcessoAExecutar,if_neg (by omega)]
    refine ⟨fun i slot hi hlive => ?_,fun i slot rand _ _ h => ?_,fun rand h => ?_⟩
    · have hmem := List.mem_of_getElem? hi
      have hb := bilhetes_of_live hlive (hpos slot hmem hlive)
      have := List.single_le_sum (fun _ _ => Nat.zero_le _) _ (List.mem_of_getElem? (getElem?_bilhetes hi))
      have := hpos slot hmem hlive
      omega
    · cases (hnenhum rand).symm.trans h
    · cases (hnenhum rand).symm.trans h
  have hdraw (rand : ℕ) : ∃ k, obtemProcessoAExecutar PIDList rand = .indice k ∧
      drawn (bilhetes PIDList) (rand%(bilhetes PIDList).sum+1) = some k := by
    obtain ⟨k,hk⟩ := exists_drawn (Nat.succ_pos _) (Nat.mod_lt rand hsum)
    exact ⟨k,by rw [obtem_eq hpos hfits hsum,hk]; rfl,hk⟩
  refine ⟨fun i slot hi hlive => ?_,fun i slot rand hi hfree h => ?_,fun rand h => ?_⟩
  · rw [← bilhetes_of_live hlive (hpos slot (List.mem_of_getElem? hi) hlive),
      ← card_drawn (getElem?_bilhetes hi),sorteios,htotal,Int.toNat_natCast]
    congr 2
    refine Finset.filter_congr fun rand hrand => ?_
    obtain ⟨k,hk,hdrawn⟩ := hdraw rand
    rw [Nat.mod_eq_of_lt (Finset.mem_range.mp hrand)] at hdrawn
    rw [hk,hdrawn,Option.some_inj,Selecao.indice.injEq]
  · obtain ⟨k,hk,hdrawn⟩ := hdraw rand
    obtain rfl := Selecao.indice.inj (hk.symm.trans h)
    exact drawn_ne_of_zero (Nat.succ_pos _)
      (bilhetes_of_free hfree ▸ getElem?_bilhetes hi) hdrawn
  · obtain ⟨k,hk,-⟩ := hdraw rand
    cases hk.symm.trans h

/-- The draw is proportional exactly where an `int` holds all the tickets. -/
theorem proportional_iff (hpos : ∀ slot ∈ PIDList, slot.pid ≠ -1 → 0 < slot.numBilhetes) :
    Proportional PIDList ↔ (bilhetes PIDList).sum < 2^31 := by
  constructor
  · intro h
    have := sum_le_of_proportional hpos h
    have := qtdTotalBilhetes_lt PIDList
    omega
  · exact proportional_of_sum_lt hpos

theorem proportional_iff_three :
    Proportional [⟨10,6⟩,⟨-1,-1⟩,⟨12,3⟩] ↔ (bilhetes [⟨10,6⟩,⟨-1,-1⟩,⟨12,3⟩]).sum < 2^31 :=
  proportional_iff (by decide)

/-- Two processes with as many tickets as an `int` holds: neither is ever selected. -/
theorem not_proportional_overflow :
    (∀ rand, obtemProcessoAExecutar [⟨10,2147483647⟩,⟨11,2147483647⟩] rand = .nenhum) ∧
      ¬ Proportional [⟨10,2147483647⟩,⟨11,2147483647⟩] := by
  have hnenhum (rand : ℕ) :
      obtemProcessoAExecutar [⟨10,2147483647⟩,⟨11,2147483647⟩] rand = .nenhum := rfl
  refine ⟨hnenhum,fun h => ?_⟩
  exact absurd (h.live 0 ⟨10,2147483647⟩ rfl (by decide)) (by decide)

end Main

end PucRio.Escalonador.Lottery
