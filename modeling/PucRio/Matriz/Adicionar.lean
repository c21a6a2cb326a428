import PucRio.Matriz.Grade

/-! Adding a line: each new node is linked to its neighbours, and they to it, so that the nodes stay
linked on the cells that there are so far. -/
namespace PucRio.Matriz
variable {A : Alocador} {x : Eixo} {h h' : Memoria} {a w n nw ne : Endereco} {m : Cabeca}

/-- A new node with the pointers `N`: the nodes that it points to point back. -/
structure Ligado (x : Eixo) (h h' : Memoria) (a : Endereco) (N : Coord → Ponteiro) : Prop where
  vivo : ∀ b, h'.Vivo b ↔ b = a ∨ h.Vivo b
  proprio : ∀ e, h'.aponta x a e = N e
  outros : ∀ b ≠ a, ∀ e,
    h'.aponta x b e = if N e.oposta = some b then some a else h.aponta x b e

/-- The neighbours of a node at the end of the last line. -/
def vizinhos (oeste norte noroeste nordeste : Ponteiro) : Coord → Ponteiro
  | .Oeste => oeste
  | .Norte => norte
  | .Noroeste => noroeste
  | .Nordeste => nordeste
  | _ => none

theorem ne_CriarNo (hw : h.Vivo w) : w ≠ (h.CriarNo A).2 := fun heq => CriarNo_livre (heq ▸ hw)

section Proximo

theorem proximo_sem_norte (hw : h.Vivo w) (hwn : h.aponta x w .Norte = none) :
    ∃ h', proximo A x h (some w) = .ok (h',some (h.CriarNo A).2) ∧
      Ligado x h h' (h.CriarNo A).2 (vizinhos (some w) none none none) := by
  have hwa : w ≠ (h.CriarNo A).2 := ne_CriarNo hw
  refine ⟨((h.CriarNo A).1.poe (h.CriarNo A).2 (x.coord .Oeste) (some w)).poe
    w (x.coord .Leste) (some (h.CriarNo A).2),?_,fun b => ?_,fun e => ?_,fun b hb e => ?_⟩
  · simp [proximo,Memoria.segue,le_some,grava_some,vivo_poe,vivo_CriarNo,aponta_poe,aponta_CriarNo,
      ok_bind,hw,hwn,hwa]
  · simp only [vivo_poe,vivo_CriarNo]
  · simp only [aponta_poe,aponta_CriarNo]
    cases e <;> simp [vizinhos,hwa.symm]
  · simp only [aponta_poe,aponta_CriarNo]
    cases e <;> simp [vizinhos,Coord.oposta,hb,eq_comm]

variable (hw : h.Vivo w) (hnw : h.Vivo nw) (hn : h.Vivo n) (hwn : h.aponta x w .Norte = some nw)
  (hnl : h.aponta x nw .Leste = some n)

include hw hnw hn hwn hnl

theorem proximo_sem_nordeste (hnll : h.aponta x n .Leste = none) :
    ∃ h', proximo A x h (some w) = .ok (h',some (h.CriarNo A).2) ∧
      Ligado x h h' (h.CriarNo A).2 (vizinhos (some w) (some n) (some nw) none) := by
  have hwa : w ≠ (h.CriarNo A).2 := ne_CriarNo hw
  have hna : n ≠ (h.CriarNo A).2 := ne_CriarNo hn
  have hnwa : nw ≠ (h.CriarNo A).2 := ne_CriarNo hnw
  refine ⟨((((((h.CriarNo A).1.poe (h.CriarNo A).2 (x.coord .Oeste) (some w)).poe
    n (x.coord .Sul) (some (h.CriarNo A).2)).poe
    (h.CriarNo A).2 (x.coord .Norte) (some n)).poe
    nw (x.coord .Sudeste) (some (h.CriarNo A).2)).poe
    (h.CriarNo A).2 (x.coord .Noroeste) (some nw)).poe
    w (x.coord .Leste) (some (h.CriarNo A).2),?_,fun b => ?_,fun e => ?_,fun b hb e => ?_⟩
  · simp [proximo,Memoria.segue,le_some,grava_some,vivo_poe,vivo_CriarNo,aponta_poe,aponta_CriarNo,
      ok_bind,hw,hn,hnw,hwn,hnl,hnll,hwa,hna,hnwa]
  · simp only [vivo_poe,vivo_CriarNo]
  · simp only [aponta_poe,aponta_CriarNo]
    cases e <;> simp [vizinhos,hwa.symm,hna.symm,hnwa.symm]
  · simp only [aponta_poe,aponta_CriarNo]
    cases e <;> simp [vizinhos,Coord.oposta,hb,eq_comm]

theorem proximo_com_nordeste (hne : h.Vivo ne) (hnll : h.aponta x n .Leste = some ne) :
    ∃ h', proximo A x h (some w) = .ok (h',some (h.CriarNo A).2) ∧
      Ligado x h h' (h.CriarNo A).2 (vizinhos (some w) (some n) (some nw) (some ne)) := by
  have hwa : w ≠ (h.CriarNo A).2 := ne_CriarNo hw
  have hna : n ≠ (h.CriarNo A).2 := ne_CriarNo hn
  have hnwa : nw ≠ (h.CriarNo A).2 := ne_CriarNo hnw
  have hnea : ne ≠ (h.CriarNo A).2 := ne_CriarNo hne
  refine ⟨((((((((h.CriarNo A).1.poe (h.CriarNo A).2 (x.coord .Oeste) (some w)).poe
    n (x.coord .Sul) (some (h.CriarNo A).2)).poe
    (h.CriarNo A).2 (x.coord .Norte) (some n)).poe
    nw (x.coord .Sudeste) (some (h.CriarNo A).2)).poe
    (h.CriarNo A).2 (x.coord .Noroeste) (some nw)).poe
    ne (x.coord .Sudoeste) (some (h.CriarNo A).2)).poe
    (h.CriarNo A).2 (x.coord .Nordeste) (some ne)).poe
    w (x.coord .Leste) (some (h.CriarNo A).2),?_,fun b => ?_,fun e => ?_,fun b hb e => ?_⟩
  · simp [proximo,Memoria.segue,le_some,grava_some,vivo_poe,vivo_CriarNo,aponta_poe,aponta_CriarNo,
      ok_bind,hw,hn,hnw,hwn,hnl,hnll,hwa,hna,hnwa,hne,hnea]
  · simp only [vivo_poe,vivo_CriarNo]
  · simp only [aponta_poe,aponta_CriarNo]
    cases e <;> simp [vizinhos,hwa.symm,hna.symm,hnwa.symm,hnea.symm]
  · simp only [aponta_poe,aponta_CriarNo]
    cases e <;> simp [vizinhos,Coord.oposta,hb,eq_comm]

end Proximo

section Inicio

theorem inicio_vazia (hm : m.pElemCorr = none) :
    ∃ h', inicio A x h m =
        .ok (h',{ m with pElemCorr := some (h.CriarNo A).2 },some (h.CriarNo A).2) ∧
      Ligado x h h' (h.CriarNo A).2 (vizinhos none none none none) := by
  refine ⟨(h.CriarNo A).1,?_,fun b => vivo_CriarNo,fun e => ?_,fun b hb e => ?_⟩
  · simp [inicio,le_some,vivo_CriarNo,aponta_CriarNo,ok_bind,hm]
  · rw [aponta_CriarNo,if_pos rfl]
    cases e <;> rfl
  · rw [aponta_CriarNo,if_neg hb]
    cases e <;> rfl

variable (hn : h.Vivo n) (hm : m.pElemCorr = some n)

include hn hm

theorem inicio_sem_nordeste (hnl : h.aponta x n .Leste = none) :
    ∃ h', inicio A x h m = .ok (h',m,some (h.CriarNo A).2) ∧
      Ligado x h h' (h.CriarNo A).2 (vizinhos none (some n) none none) := by
  have hna : n ≠ (h.CriarNo A).2 := ne_CriarNo hn
  refine ⟨((h.CriarNo A).1.poe (h.CriarNo A).2 (x.coord .Norte) (some n)).poe
    n (x.coord .Sul) (some (h.CriarNo A).2),?_,fun b => ?_,fun e => ?_,fun b hb e => ?_⟩
  · simp [inicio,Memoria.segue,le_some,grava_some,vivo_poe,vivo_CriarNo,aponta_poe,aponta_CriarNo,
      ok_bind,hm,hn,hnl,hna,hna.symm]
  · simp only [vivo_poe,vivo_CriarNo]
  · simp only [aponta_poe,aponta_CriarNo]
    cases e <;> simp [vizinhos,hna.symm]
  · simp only [aponta_poe,aponta_CriarNo]
    cases e <;> simp [vizinhos,Coord.oposta,hb,eq_comm]

theorem inicio_com_nordeste (hne : h.Vivo ne) (hnl : h.aponta x n .Leste = some ne) :
    ∃ h', inicio A x h m = .ok (h',m,some (h.CriarNo A).2) ∧
      Ligado x h h' (h.CriarNo A).2 (vizinhos none (some n) none (some ne)) := by
  have hna : n ≠ (h.CriarNo A).2 := ne_CriarNo hn
  have hnea : ne ≠ (h.CriarNo A).2 := ne_CriarNo hne
  refine ⟨((((h.CriarNo A).1.poe (h.CriarNo A).2 (x.coord .Norte) (some n)).poe
    n (x.coord .Sul) (some (h.CriarNo A).2)).poe
    ne (x.coord .Sudoeste) (some (h.CriarNo A).2)).poe
    (h.CriarNo A).2 (x.coord .Nordeste) (some ne),?_,fun b => ?_,fun e => ?_,fun b hb e => ?_⟩
  · simp [inicio,Memoria.segue,le_some,grava_some,vivo_poe,vivo_CriarNo,aponta_poe,aponta_CriarNo,
      ok_bind,hm,hn,hnl,hne,hna,hna.symm,hnea,hnea.symm]
  · simp only [vivo_poe,vivo_CriarNo]
  · simp only [aponta_poe,aponta_CriarNo]
    cases e <;> simp [vizinhos,hna.symm,hnea.symm]
  · simp only [aponta_poe,aponta_CriarNo]
    cases e <;> simp [vizinhos,Coord.oposta,hb,eq_comm]

end Inicio

section Linha
variable {g g' : ℤ × ℤ → Endereco} {num comp k : ℤ} {N : Coord → Ponteiro}

/-- The cells when the first `k` of a new line are there. -/
def Parcial (num comp k : ℤ) : Set (ℤ × ℤ) :=
  {p | p ∈ Retangulo num comp ∨ p.1 = num ∧ 0 ≤ p.2 ∧ p.2 < k}

theorem mem_Parcial {p : ℤ × ℤ} : p ∈ Parcial num comp k ↔
    (0 ≤ p.1 ∧ p.1 < num ∧ 0 ≤ p.2 ∧ p.2 < comp) ∨ p.1 = num ∧ 0 ≤ p.2 ∧ p.2 < k := Iff.rfl

theorem Parcial_zero : Parcial num comp 0 = Retangulo num comp := by
  ext p
  rw [mem_Parcial,mem_Retangulo]
  omega

theorem Parcial_succ (hk : 0 ≤ k) :
    Parcial num comp (k+1) = insert (num,k) (Parcial num comp k) := by
  ext p
  rw [Set.mem_insert_iff,mem_Parcial,mem_Parcial,Prod.ext_iff]
  omega

theorem Parcial_comp (hnum : 0 ≤ num) : Parcial num comp comp = Retangulo (num+1) comp := by
  ext p
  rw [mem_Parcial,mem_Retangulo]
  omega

/-- The matrix `g` while it grows: its nodes and the new ones are linked, and what is not a node of
it is left alone. -/
structure Crescendo (x : Eixo) (num comp : ℤ) (h : Memoria) (g : ℤ × ℤ → Endereco) (k : ℤ)
    (h' : Memoria) (g' : ℤ × ℤ → Endereco) : Prop where
  ligada : Linked desl (h'.aponta x) g' (Parcial num comp k)
  vivos : ∀ p ∈ Parcial num comp k, h'.Vivo (g' p)
  velhos : ∀ p ∈ Retangulo num comp, g' p = g p
  novos : ∀ p ∈ Parcial num comp k, p ∉ Retangulo num comp → ¬ h.Vivo (g' p)
  fora : ∀ b, h.Vivo b → (∀ p ∈ Retangulo num comp, g p ≠ b) → h'.Vivo b ∧ h'.no b = h.no b

theorem Crescendo.vivo {h₀ : Memoria} (hc : Crescendo x num comp h₀ g k h g') {b : Endereco}
    (hb : h₀.Vivo b) : h.Vivo b := by
  by_cases hg : ∀ p ∈ Retangulo num comp, g p ≠ b
  · exact (hc.fora b hb hg).1
  · push Not at hg
    obtain ⟨p,hp,rfl⟩ := hg
    rw [← hc.velhos p hp]
    exact hc.vivos p (.inl hp)

/-- A node that is linked to its neighbours is one more cell of the line. -/
theorem Crescendo.ligado {h₀ : Memoria} (hc : Crescendo x num comp h₀ g k h g') (hk : 0 ≤ k)
    (ha : ¬ h.Vivo a) (hl : Ligado x h h' a N)
    (hin : ∀ d, (num,k)+desl d ∈ Parcial num comp k → N d = some (g' ((num,k)+desl d)))
    (hout : ∀ d, (num,k)+desl d ∉ Parcial num comp k → N d = none) :
    Crescendo x num comp h₀ g (k+1) h' (Function.update g' (num,k) a) := by
  have hq : (num,k) ∉ Parcial num comp k := by
    rw [mem_Parcial]
    omega
  have hga : ∀ p ∈ Parcial num comp k, g' p ≠ a := fun p hp heq => ha (heq ▸ hc.vivos p hp)
  have hupd : ∀ p ∈ Parcial num comp k, Function.update g' (num,k) a p = g' p := by
    intro p hp
    have hne : p ≠ (num,k) := fun heq => hq (heq ▸ hp)
    exact Function.update_of_ne hne a g'
  refine ⟨?_,?_,?_,?_,?_⟩
  · rw [Parcial_succ hk]
    apply hc.ligada.insert_node desl_oposta desl_ne_zero hq hga hin hout hl.proprio
    · intro p hp d hN
      rw [hl.outros (g' p) (hga p hp),if_pos hN]
    · intro p hp d hN
      rw [hl.outros (g' p) (hga p hp),if_neg hN]
  · rw [Parcial_succ hk]
    rintro p (rfl | hp)
    · rw [Function.update_self,hl.vivo]
      exact .inl rfl
    · rw [hupd p hp,hl.vivo]
      exact .inr (hc.vivos p hp)
  · intro p hp
    rw [hupd p (.inl hp),hc.velhos p hp]
  · rw [Parcial_succ hk]
    rintro p (rfl | hp) hnew
    · rw [Function.update_self]
      exact fun hb => ha (hc.vivo hb)
    · rw [hupd p hp]
      exact hc.novos p hp hnew
  · intro b hb hg
    obtain ⟨hvivo,hno⟩ := hc.fora b hb hg
    refine ⟨(hl.vivo b).mpr (.inr hvivo),?_⟩
    rw [← hno,no_eq_iff x]
    intro d
    -- a neighbour of the new node is a node of the matrix
    refine (hl.outros b (fun heq => ha (heq ▸ hvivo)) d).trans (if_neg fun hN => ?_)
    by_cases hd : (num,k)+desl d.oposta ∈ Parcial num comp k
    · obtain rfl := Option.some.inj ((hin _ hd).symm.trans hN)
      by_cases hold : (num,k)+desl d.oposta ∈ Retangulo num comp
      · exact hg _ hold (hc.velhos _ hold).symm
      · exact hc.novos _ hd hold hb
    · rw [hout _ hd] at hN
      cases hN

theorem Crescendo.aponta {h₀ : Memoria} (hc : Crescendo x num comp h₀ g k h g') {p r : ℤ × ℤ}
    {d e : Coord} (hp : (num,k)+desl d = p) (hpc : p ∈ Parcial num comp k)
    (hr : (num,k)+desl d+desl e = r) (hrc : r ∈ Parcial num comp k) :
    h.aponta x (g' p) e = some (g' r) := by
  subst hp hr
  exact hc.ligada.inside _ hpc e hrc

theorem Crescendo.zero (hl : Linked desl (h.aponta x) g (Retangulo num comp))
    (hv : ∀ p ∈ Retangulo num comp, h.Vivo (g p)) : Crescendo x num comp h g 0 h g where
  ligada := Parcial_zero ▸ hl
  vivos := Parcial_zero ▸ hv
  velhos _ _ := rfl
  novos _ hp hnew := absurd (Parcial_zero ▸ hp) hnew
  fora _ hb _ := ⟨hb,rfl⟩

/-- The first node of the line. -/
theorem Crescendo.inicio (hc : Crescendo x num comp h g 0 h g) (hcomp : 1 ≤ comp)
    (hm : m.pElemCorr = none ∧ num = 0 ∨ 1 ≤ num ∧ m.pElemCorr = some (g (num-1,0))) :
    ∃ h', inicio A x h m = .ok (h',{ m with pElemCorr := m.pElemCorr.or (h.CriarNo A).2 },
        some (h.CriarNo A).2) ∧
      Crescendo x num comp h g 1 h' (Function.update g (num,0) (h.CriarNo A).2) := by
  obtain ⟨hm,rfl⟩ | ⟨hnum,hm⟩ := hm
  · obtain ⟨h',hi,hl⟩ := inicio_vazia (A := A) (x := x) (h := h) hm
    refine ⟨h',by rw [hi,hm]; rfl,hc.ligado le_rfl CriarNo_livre hl ?_ ?_⟩
    · intro d hd
      cases d
      all_goals
        simp only [mem_Parcial,desl,Prod.fst_add,Prod.snd_add] at hd
        omega
    · intro d _
      cases d <;> rfl
  · have hn : (num-1,0) ∈ Parcial num comp 0 := by
      rw [mem_Parcial]
      omega
    have hn' : (num,0)+desl .Norte = (num-1,0) := rfl
    have hne' : (num,0)+desl .Norte+desl .Leste = (num,0)+desl .Nordeste := by
      rw [add_assoc]
      rfl
    have hkeep : m = { m with pElemCorr := m.pElemCorr.or (h.CriarNo A).2 } := by
      rw [hm]
      cases m
      cases hm
      rfl
    rw [← hkeep]
    by_cases hne : (num,0)+desl .Nordeste ∈ Parcial num comp 0
    · obtain ⟨h',hi,hl⟩ := inicio_com_nordeste (A := A) (hc.vivos _ hn) hm (hc.vivos _ hne)
        (hc.aponta hn' hn hne' hne)
      refine ⟨h',hi,hc.ligado le_rfl CriarNo_livre hl ?_ ?_⟩
      · intro d hd
        cases d with
        | Norte => rfl
        | Nordeste => rfl
        | _ =>
          simp only [mem_Parcial,desl,Prod.fst_add,Prod.snd_add] at hd
          omega
      · intro d hd
        cases d with
        | Norte => exact absurd (hn' ▸ hn) hd
        | Nordeste => exact absurd hne hd
        | _ => rfl
    · have hborda : h.aponta x (g (num-1,0)) .Leste = none := by
        apply hc.ligada.border _ hn
        rwa [← hn',hne']
      obtain ⟨h',hi,hl⟩ := inicio_sem_nordeste (A := A) (hc.vivos _ hn) hm hborda
      refine ⟨h',hi,hc.ligado le_rfl CriarNo_livre hl ?_ ?_⟩
      · intro d hd
        cases d with
        | Norte => rfl
        | Nordeste => exact absurd hd hne
        | _ =>
          simp only [mem_Parcial,desl,Prod.fst_add,Prod.snd_add] at hd
          omega
      · intro d hd
        cases d with
        | Norte => exact absurd (hn' ▸ hn) hd
        | _ => rfl

/-- One more node of the line. -/
theorem Crescendo.proximo {h₀ : Memoria} (hc : Crescendo x num comp h₀ g k h g') (hk : 1 ≤ k)
    (hnum : 0 ≤ num) (hcomp : k < comp) :
    ∃ h', proximo A x h (some (g' (num,k-1))) = .ok (h',some (h.CriarNo A).2) ∧
      Crescendo x num comp h₀ g (k+1) h' (Function.update g' (num,k) (h.CriarNo A).2) := by
  have hw : (num,k)+desl .Oeste ∈ Parcial num comp k := by
    simp only [mem_Parcial,desl,Prod.fst_add,Prod.snd_add]
    omega
  have hw' : (num,k-1) = (num,k)+desl .Oeste := by
    apply Prod.ext <;> simp only [desl,Prod.fst_add,Prod.snd_add] <;> omega
  rw [hw']
  obtain rfl | hpos := hnum.eq_or_lt
  · have hn : h.aponta x (g' ((0,k)+desl .Oeste)) .Norte = none := by
      apply hc.ligada.border _ hw
      simp only [mem_Parcial,desl,Prod.fst_add,Prod.snd_add]
      omega
    obtain ⟨h',hp,hl⟩ := proximo_sem_norte (A := A) (hc.vivos _ hw) hn
    refine ⟨h',hp,hc.ligado (by omega) CriarNo_livre hl ?_ ?_⟩
    · intro d hd
      cases d with
      | Oeste => rfl
      | _ =>
        simp only [mem_Parcial,desl,Prod.fst_add,Prod.snd_add] at hd
        omega
    · intro d hd
      cases d with
      | Oeste => exact absurd hw hd
      | _ => rfl
  · have hnw : (num,k)+desl .Noroeste ∈ Parcial num comp k := by
      simp only [mem_Parcial,desl,Prod.fst_add,Prod.snd_add]
      omega
    have hn : (num,k)+desl .Norte ∈ Parcial num comp k := by
      simp only [mem_Parcial,desl,Prod.fst_add,Prod.snd_add]
      omega
    have hwn := hc.aponta (e := .Norte) rfl hw (add_assoc _ _ _) hnw
    have hnl := hc.aponta (e := .Leste) rfl hnw (add_assoc _ _ _) hn
    have hne' : (num,k)+desl .Norte+desl .Leste = (num,k)+desl .Nordeste := add_assoc _ _ _
    by_cases hne : (num,k)+desl .Nordeste ∈ Parcial num comp k
    · obtain ⟨h',hp,hl⟩ := proximo_com_nordeste (A := A) (hc.vivos _ hw) (hc.vivos _ hnw)
        (hc.vivos _ hn) hwn hnl (hc.vivos _ hne) (hc.aponta rfl hn hne' hne)
      refine ⟨h',hp,hc.ligado (by omega) CriarNo_livre hl ?_ ?_⟩
      · intro d hd
        cases d with
        | Oeste => rfl
        | Norte => rfl
        | Noroeste => rfl
        | Nordeste => rfl
        | _ =>
          simp only [mem_Parcial,desl,Prod.fst_add,Prod.snd_add] at hd
          omega
      · intro d hd
        cases d with
        | Oeste => exact absurd hw hd
        | Norte => exact absurd hn hd
        | Noroeste => exact absurd hnw hd
        | Nordeste => exact absurd hne hd
        | _ => rfl
    · have hborda : h.aponta x (g' ((num,k)+desl .Norte)) .Leste = none := by
        apply hc.ligada.border _ hn
        rwa [hne']
      obtain ⟨h',hp,hl⟩ := proximo_sem_nordeste (A := A) (hc.vivos _ hw) (hc.vivos _ hnw)
        (hc.vivos _ hn) hwn hnl hborda
      refine ⟨h',hp,hc.ligado (by omega) CriarNo_livre hl ?_ ?_⟩
      · intro d hd
        cases d with
        | Oeste => rfl
        | Norte => rfl
        | Noroeste => rfl
        | Nordeste => exact absurd hd hne
        | _ =>
          simp only [mem_Parcial,desl,Prod.fst_add,Prod.snd_add] at hd
          omega
      · intro d hd
        cases d with
        | Oeste => exact absurd hw hd
        | Norte => exact absurd hn hd
        | Noroeste => exact absurd hnw hd
        | _ => rfl

/-- The rest of the line. -/
theorem Crescendo.proximos {h₀ : Memoria} {n : ℕ} (hc : Crescendo x num comp h₀ g k h g')
    (hk : 1 ≤ k) (hnum : 0 ≤ num) (hn : k+n = comp) {a : Endereco} (ha : g' (num,k-1) = a) :
    ∃ h' g₁, proximos A x n h (some a) = .ok h' ∧ Crescendo x num comp h₀ g comp h' g₁ ∧
      ∀ j < k, g₁ (num,j) = g' (num,j) := by
  subst ha
  induction n generalizing k h g' with
  | zero =>
    obtain rfl : k = comp := by omega
    exact ⟨h,g',rfl,hc,fun _ _ => rfl⟩
  | succ n ih =>
    obtain ⟨h₁,hp,hc₁⟩ := hc.proximo (A := A) hk hnum (by omega)
    obtain ⟨h',g₁,hps,hc',hg⟩ := ih hc₁ (by omega) (by omega)
    refine ⟨h',g₁,?_,hc',fun j hj => ?_⟩
    · rw [Matriz.proximos,hp,ok_bind]
      rw [add_sub_cancel_right,Function.update_self] at hps
      exact hps
    · rw [hg j (by omega),Function.update_of_ne fun heq => hj.ne (Prod.mk.inj heq).2]

end Linha

section Adicionar
variable {g : ℤ × ℤ → Endereco}

/-- What adding a line needs: the length of a line is known, also where there is none yet. -/
structure Pronta (x : Eixo) (h : Memoria) (m : Cabeca) (g : ℤ × ℤ → Endereco) : Prop where
  ligada : Linked desl (h.aponta x) g (Retangulo (x.num m) (x.comp m))
  vivos : ∀ p ∈ Retangulo (x.num m) (x.comp m), h.Vivo (g p)
  comp : 1 ≤ x.comp m
  corr : m.pElemCorr = none ∧ x.num m = 0 ∨
    ∃ p ∈ Retangulo (x.num m) (x.comp m), m.pElemCorr = some (g p)

/-- The current node goes to the beginning of the last line. -/
theorem Pronta.avanca (hp : Pronta x h m g) : ∃ m',
    (avanca (x.coord .Oeste) h m >>= fun m => avanca (x.coord .Sul) h m) = .ok m' ∧
      x.num m' = x.num m ∧ x.comp m' = x.comp m ∧
      (m'.pElemCorr = none ∧ x.num m = 0 ∨
        1 ≤ x.num m ∧ m'.pElemCorr = some (g (x.num m-1,0))) := by
  obtain ⟨hm,hnum⟩ | ⟨p,hpr,hm⟩ := hp.corr
  · refine ⟨m,?_,rfl,rfl,.inl ⟨hm,hnum⟩⟩
    rw [Matriz.avanca,if_pos hm,ok_bind,Matriz.avanca,if_pos hm]
  · obtain ⟨hq,hO⟩ := avanca_eq hp.ligada hp.vivos hpr hm (d := .Oeste) (by decide)
    obtain ⟨-,hS⟩ := avanca_eq (m := { m with pElemCorr := some (g (p.1,0)) }) hp.ligada hp.vivos hq
      rfl (d := .Sul) (by decide)
    refine ⟨{ m with pElemCorr := some (g (x.num m-1,0)) },?_,num_corr,comp_corr,.inr ⟨?_,rfl⟩⟩
    · rw [hO,ok_bind]
      exact hS
    · rw [mem_Retangulo] at hpr
      omega

theorem adicionar_ok (hp : Pronta x h m g) : ∃ h' m' g', adicionar A x h m = .ok (h',m') ∧
    x.num m' = x.num m+1 ∧ x.comp m' = x.comp m ∧ Grade x h' m' g' ∧
    Preserva x h m g h' m' g' := by
  obtain ⟨m₁,hav,hnum,hcomp,hcorr⟩ := hp.avanca
  have hnum0 : 0 ≤ x.num m := by
    obtain ⟨-,h0⟩ | ⟨h1,-⟩ := hcorr
    · exact h0.ge
    · omega
  have hcomp1 := hp.comp
  obtain ⟨h₁,hi,hc₁⟩ := (Crescendo.zero hp.ligada hp.vivos).inicio (A := A) hp.comp hcorr
  obtain ⟨h',g',hps,hc,hg⟩ := hc₁.proximos (A := A) (n := (x.comp m-1).toNat) le_rfl hnum0
    (by omega) (Function.update_self ..)
  let m₂ : Cabeca := { m₁ with pElemCorr := m₁.pElemCorr.or (h.CriarNo A).2 }
  have hnum₂ : x.num m₂ = x.num m := num_corr.trans hnum
  have hcomp₂ : x.comp m₂ = x.comp m := comp_corr.trans hcomp
  have hset : Parcial (x.num m) (x.comp m) (x.comp m) = Retangulo (x.num m+1) (x.comp m) :=
    Parcial_comp hnum0
  refine ⟨h',x.muda m₂ (x.num m₂+1) (x.comp m₂),g',?_,?_,?_,⟨?_,?_,.inr ?_⟩,?_⟩
  · rw [adicionar,← bind_assoc,hav,ok_bind,hi]
    change (proximos A x (x.comp m₂-1).toNat h₁ _ >>= _) = _
    rw [hcomp₂,hps]
    rfl
  · rw [num_muda,hnum₂]
  · rw [comp_muda,hcomp₂]
  · rw [num_muda,comp_muda,hnum₂,hcomp₂,← hset]
    exact hc.ligada
  · rw [num_muda,comp_muda,hnum₂,hcomp₂,← hset]
    exact hc.vivos
  · rw [num_muda,comp_muda,corr_muda,hnum₂,hcomp₂]
    change ∃ p ∈ _, m₁.pElemCorr.or (h.CriarNo A).2 = some (g' p)
    obtain ⟨hm,-⟩ | ⟨h1,hm⟩ := hcorr
    · refine ⟨(x.num m,0),?_,?_⟩
      · rw [mem_Retangulo]
        omega
      · rw [hm,hg 0 one_pos,Function.update_self]
        rfl
    · refine ⟨(x.num m-1,0),?_,?_⟩
      · rw [mem_Retangulo]
        omega
      · rw [hm,hc.velhos _ (mem_Retangulo.mpr (by omega))]
        rfl
  · rw [Preserva,num_muda,comp_muda,hnum₂,hcomp₂,← hset]
    intro b hb hout
    obtain ⟨hvivo,hno⟩ := hc.fora b hb hout
    refine ⟨hvivo,hno,?_⟩
    rintro p hp rfl
    by_cases hold : p ∈ Retangulo (x.num m) (x.comp m)
    · exact hout p hold (hc.velhos p hold).symm
    · exact hc.novos p hp hold hb

end Adicionar

end PucRio.Matriz
