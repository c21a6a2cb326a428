import PucRio.Matriz.Grade

/-! Removing the last line: its nodes go one after the other, from its end, and the nodes above lose
their pointers to the south. -/
namespace PucRio.Matriz
variable {x : Eixo} {h h' : Memoria} {m : Cabeca} {g : ℤ × ℤ → Endereco} {num comp v : ℤ}

section Rodada
variable {a b c nn w : Endereco} {d : Coord}

def Memoria.sem (h : Memoria) (a : Endereco) : Memoria := { h with vivos := h.vivos.erase a }

theorem vivo_sem : (h.sem a).Vivo b ↔ b ≠ a ∧ h.Vivo b := Finset.mem_erase

theorem aponta_sem : (h.sem a).aponta x b d = h.aponta x b d := rfl

theorem ExcluirNoMatriz_some (ha : h.Vivo a) : h.ExcluirNoMatriz (some a) = .ok (h.sem a) := by
  rw [Memoria.ExcluirNoMatriz,alvo_some ha]
  rfl

/-- The node without its pointers to the south. -/
def semSul (x : Eixo) (h : Memoria) (nn : Endereco) : Memoria :=
  ((h.poe nn (x.coord .Sul) none).poe nn (x.coord .Sudoeste) none).poe nn (x.coord .Sudeste) none

def Coord.aoSul : Coord → Bool
  | Sul | Sudoeste | Sudeste => true
  | _ => false

theorem aponta_semSul : (semSul x h nn).aponta x b d =
    if b = nn ∧ d.aoSul = true then none else h.aponta x b d := by
  simp only [semSul,aponta_poe]
  by_cases hb : b = nn
  · cases d <;> simp [Coord.aoSul,hb]
  · simp [hb]

section Ultimo
variable (hc : h.Vivo c) (hw : h.Vivo w) (hcw : h.aponta x c .Oeste = some w)
  (hwc : h.aponta x w .Leste = some c)

include hc hw hcw hwc

theorem anteriorSemNo_sem_norte (hcn : h.aponta x c .Norte = none) :
    anteriorSemNo x h (some c) = .ok (h.sem c,some w) := by
  simp [anteriorSemNo,le_some,ok_bind,hc,hw,hcw,hwc,hcn,ExcluirNoMatriz_some]

theorem anteriorSemNo_com_norte (hn : h.Vivo nn) (hcn : h.aponta x c .Norte = some nn)
    (hcnn : c ≠ nn) (hwnn : w ≠ nn) :
    anteriorSemNo x h (some c) = .ok ((semSul x h nn).sem c,some w) := by
  simp [anteriorSemNo,le_some,grava_some,vivo_poe,aponta_poe,ok_bind,hc,hw,hn,hcw,hwc,hcn,hcnn,hwnn,
    ExcluirNoMatriz_some,semSul]

end Ultimo

theorem primeiroSemNo_sem_norte (hc : h.Vivo c) (hcn : h.aponta x c .Norte = none) :
    primeiroSemNo x h (some c) = .ok (h.sem c,none) := by
  simp [primeiroSemNo,le_some,ok_bind,hc,hcn,ExcluirNoMatriz_some]

theorem primeiroSemNo_com_norte (hc : h.Vivo c) (hn : h.Vivo nn)
    (hcn : h.aponta x c .Norte = some nn) (hnc : h.aponta x nn .Sul = some c) (hcnn : c ≠ nn) :
    ∃ h', primeiroSemNo x h (some c) = .ok (h',some nn) ∧
      (∀ b, h'.Vivo b ↔ ((semSul x h nn).sem c).Vivo b) ∧
      ∀ b d, h'.aponta x b d = ((semSul x h nn).sem c).aponta x b d := by
  refine ⟨(((h.poe nn (x.coord .Sudoeste) none).poe nn (x.coord .Sudeste) none).sem c).poe
    nn (x.coord .Sul) none,?_,fun b => Iff.rfl,fun b d => ?_⟩
  · simp [primeiroSemNo,le_some,grava_some,vivo_poe,vivo_sem,aponta_poe,ok_bind,hc,hn,hcn,hnc,hcnn,
      hcnn.symm,ExcluirNoMatriz_some]
  · rw [aponta_sem,aponta_semSul]
    simp only [aponta_poe,aponta_sem]
    by_cases hb : b = nn
    · cases d <;> simp [Coord.aoSul,hb]
    · simp [hb]

end Rodada

section Linha

/-- The matrix `g` while it loses its last line: the nodes behind `v` are gone, and the pointers to the
south of those above them. -/
structure Encolhendo (x : Eixo) (num comp : ℤ) (h : Memoria) (g : ℤ × ℤ → Endereco) (v : ℤ)
    (h' : Memoria) : Prop where
  desde : -1 ≤ v
  vivo : ∀ b, h'.Vivo b ↔ h.Vivo b ∧ ∀ j, v < j → j < comp → b ≠ g (num-1,j)
  limpo : 2 ≤ num → ∀ j, v < j → j < comp → ∀ d,
    h'.aponta x (g (num-2,j)) d = if d.aoSul = true then none else h.aponta x (g (num-2,j)) d
  resto : ∀ b, (2 ≤ num → ∀ j, v < j → j < comp → b ≠ g (num-2,j)) → h'.no b = h.no b

/-- Before the loop. -/
theorem Encolhendo.inicio (hcomp : 0 ≤ comp) : Encolhendo x num comp h g (comp-1) h where
  desde := by omega
  vivo _ := (and_iff_left fun j hj hj' => absurd hj (by omega)).symm
  limpo _ j hj hj' := absurd hj (by omega)
  resto _ _ := rfl

variable {h₀ : Memoria} (hl : Linked desl (h₀.aponta x) g (Retangulo num comp))
  (hv : ∀ p ∈ Retangulo num comp, h₀.Vivo (g p)) (he : Encolhendo x num comp h₀ g v h)

section Nos
include hl he

/-- A node that is not in the line above the last one, or is there up to `v`, is as it was. -/
theorem Encolhendo.aponta {p : ℤ × ℤ} (hp : p ∈ Retangulo num comp)
    (hpv : p.1 = num-2 → p.2 ≤ v) (d : Coord) : h.aponta x (g p) d = h₀.aponta x (g p) d := by
  refine (no_eq_iff x).mp (he.resto _ fun hnum j hj hjc heq => ?_) d
  have hdesde := he.desde
  have hq : (num-2,j) ∈ Retangulo num comp := by
    rw [mem_Retangulo]
    omega
  obtain rfl := hl.inj hp hq heq
  exact absurd (hpv rfl) (by omega)

include hv in
theorem Encolhendo.vivo_cell {p : ℤ × ℤ} (hp : p ∈ Retangulo num comp)
    (hpv : p.1 = num-1 → p.2 ≤ v) : h.Vivo (g p) := by
  refine (he.vivo _).mpr ⟨hv p hp,fun j hj hjc heq => ?_⟩
  have hdesde := he.desde
  have hq : (num-1,j) ∈ Retangulo num comp := by
    rw [mem_Retangulo] at hp ⊢
    omega
  obtain rfl := hl.inj hp hq heq
  exact absurd (hpv rfl) (by omega)

/-- One node less, with the one above cleared. -/
theorem Encolhendo.passo (hv0 : 0 ≤ v) (hvc : v < comp)
    (hvivo : ∀ b, h'.Vivo b ↔ b ≠ g (num-1,v) ∧ h.Vivo b)
    (hno : ∀ b d, h'.aponta x b d =
      if (2 ≤ num ∧ b = g (num-2,v)) ∧ d.aoSul = true then none else h.aponta x b d) :
    Encolhendo x num comp h₀ g (v-1) h' := by
  refine ⟨by omega,fun b => ?_,fun hnum j hj hjc d => ?_,fun b hb => ?_⟩
  · rw [hvivo,he.vivo]
    constructor
    · rintro ⟨hbv,hb,hall⟩
      refine ⟨hb,fun j hj hjc => ?_⟩
      obtain rfl | hj := (show v = j ∨ v < j by omega)
      · exact hbv
      · exact hall j hj hjc
    · rintro ⟨hb,hall⟩
      exact ⟨hall v (by omega) hvc,hb,fun j hj hjc => hall j (by omega) hjc⟩
  · rw [hno]
    obtain rfl | hj := (show v = j ∨ v < j by omega)
    · rw [he.aponta hl (mem_Retangulo.mpr (by omega)) fun _ => le_rfl]
      by_cases hd : d.aoSul = true
      · rw [if_pos ⟨⟨hnum,rfl⟩,hd⟩,if_pos hd]
      · rw [if_neg fun h => hd h.2,if_neg hd]
    · rw [he.limpo hnum j hj hjc]
      by_cases hd : d.aoSul = true
      · rw [if_pos hd,ite_self]
      · rw [if_neg fun h => hd h.2]
  · rw [← he.resto b fun hnum j hj hjc => hb hnum j (by omega) hjc,no_eq_iff x]
    intro d
    rw [hno,if_neg fun h => hb h.1.1 v (by omega) hvc h.1.2]

end Nos

include hl hv he

/-- One round of the loop. -/
theorem Encolhendo.anteriorSemNo (hnum : 1 ≤ num) (hv1 : 1 ≤ v) (hvc : v < comp) :
    ∃ h', anteriorSemNo x h (some (g (num-1,v))) = .ok (h',some (g (num-1,v-1))) ∧
      Encolhendo x num comp h₀ g (v-1) h' := by
  have hc : (num-1,v) ∈ Retangulo num comp := mem_Retangulo.mpr (by omega)
  have hw : (num-1,v-1) ∈ Retangulo num comp := mem_Retangulo.mpr (by omega)
  have hvivoc := he.vivo_cell hl hv hc fun _ => le_rfl
  have hvivow := he.vivo_cell hl hv hw fun _ => (by omega : v-1 ≤ v)
  have hcw : h.aponta x (g (num-1,v)) .Oeste = some (g (num-1,v-1)) := by
    rw [he.aponta hl hc fun h => absurd h (by omega)]
    exact hl.eq_some hc hw (Prod.ext (add_zero _) rfl)
  have hwc : h.aponta x (g (num-1,v-1)) .Leste = some (g (num-1,v)) := by
    rw [he.aponta hl hw fun h => absurd h (by omega)]
    exact hl.eq_some hw hc (Prod.ext (add_zero _) (sub_add_cancel v 1))
  by_cases hnum2 : 2 ≤ num
  · have hn : (num-2,v) ∈ Retangulo num comp := mem_Retangulo.mpr (by omega)
    have hcn : h.aponta x (g (num-1,v)) .Norte = some (g (num-2,v)) := by
      rw [he.aponta hl hc fun h => absurd h (by omega)]
      refine hl.eq_some hc hn (Prod.ext ?_ (add_zero v))
      change num-1+ -1 = num-2
      omega
    have hvivon := he.vivo_cell hl hv hn fun h => absurd h (by omega)
    have hne {p q : ℤ × ℤ} (hp : p ∈ Retangulo num comp) (hq : q ∈ Retangulo num comp)
        (hpq : p.1 ≠ q.1) : g p ≠ g q := fun heq => hpq (congrArg Prod.fst (hl.inj hp hq heq))
    refine ⟨_,anteriorSemNo_com_norte hvivoc hvivow hcw hwc hvivon hcn (hne hc hn (by omega))
      (hne hw hn (by omega)),he.passo hl (by omega) hvc (fun b => vivo_sem) fun b d => ?_⟩
    rw [aponta_sem,aponta_semSul]
    simp only [hnum2,true_and]
  · have hcn : h.aponta x (g (num-1,v)) .Norte = none := by
      rw [he.aponta hl hc fun h => absurd h (by omega)]
      refine hl.border _ hc _ fun hq => ?_
      have := (mem_Retangulo.mp hq).1
      change 0 ≤ num-1+ -1 at this
      omega
    refine ⟨_,anteriorSemNo_sem_norte hvivoc hvivow hcw hwc hcn,
      he.passo hl (by omega) hvc (fun b => vivo_sem) fun b d => ?_⟩
    rw [aponta_sem,if_neg fun h => hnum2 h.1.1]

/-- The loop goes to the beginning of the line. -/
theorem Encolhendo.anterioresSemNo (hnum : 1 ≤ num) (hvc : v < comp) {n : ℕ} (hn : v = n)
    {fuel : ℕ} (hf : n < fuel) :
    ∃ h', anterioresSemNo x fuel h (some (g (num-1,v))) = .ok (h',some (g (num-1,0))) ∧
      Encolhendo x num comp h₀ g 0 h' := by
  induction n generalizing v h fuel with
  | zero =>
    obtain rfl : v = 0 := hn
    obtain ⟨fuel,rfl⟩ := Nat.exists_eq_add_one.mpr hf
    have hc : (num-1,0) ∈ Retangulo num comp := mem_Retangulo.mpr (by omega)
    have hco : h.aponta x (g (num-1,0)) .Oeste = none := by
      rw [he.aponta hl hc fun h => absurd h (by omega)]
      refine hl.border _ hc _ fun hq => ?_
      have := (mem_Retangulo.mp hq).2.2.1
      change 0 ≤ (0 : ℤ)+ -1 at this
      omega
    refine ⟨h,?_,he⟩
    rw [Matriz.anterioresSemNo,le_some (he.vivo_cell hl hv hc fun _ => le_rfl),ok_bind,hco]
    rfl
  | succ n ih =>
    obtain ⟨fuel,rfl⟩ := Nat.exists_eq_add_one.mpr (Nat.zero_lt_of_lt hf)
    have hc : (num-1,v) ∈ Retangulo num comp := mem_Retangulo.mpr (by omega)
    have hw : (num-1,v-1) ∈ Retangulo num comp := mem_Retangulo.mpr (by omega)
    have hcw : h.aponta x (g (num-1,v)) .Oeste = some (g (num-1,v-1)) := by
      rw [he.aponta hl hc fun h => absurd h (by omega)]
      exact hl.eq_some hc hw (Prod.ext (add_zero _) rfl)
    obtain ⟨h₁,hr,he₁⟩ := he.anteriorSemNo hl hv hnum (by omega) hvc
    have hf' : n < fuel := by omega
    obtain ⟨h',hrs,he'⟩ := ih he₁ (by omega) (by omega) hf'
    refine ⟨h',?_,he'⟩
    rw [Matriz.anterioresSemNo,le_some (he.vivo_cell hl hv hc fun _ => le_rfl),ok_bind,hcw,
      if_pos (Option.some_ne_none _),hr]
    exact hrs

omit he in
/-- The last node of the line, which is its first. -/
theorem Encolhendo.primeiroSemNo (he : Encolhendo x num comp h₀ g 0 h) (hnum : 1 ≤ num)
    (hcomp : 1 ≤ comp) :
    ∃ h', primeiroSemNo x h (some (g (num-1,0))) =
        .ok (h',if 2 ≤ num then some (g (num-2,0)) else none) ∧
      Encolhendo x num comp h₀ g (-1) h' := by
  have hc : (num-1,0) ∈ Retangulo num comp := mem_Retangulo.mpr (by omega)
  have hvivoc := he.vivo_cell hl hv hc fun _ => le_rfl
  by_cases hnum2 : 2 ≤ num
  · have hn : (num-2,0) ∈ Retangulo num comp := mem_Retangulo.mpr (by omega)
    have hcn : h.aponta x (g (num-1,0)) .Norte = some (g (num-2,0)) := by
      rw [he.aponta hl hc fun h => absurd h (by omega)]
      refine hl.eq_some hc hn (Prod.ext ?_ rfl)
      change num-1+ -1 = num-2
      omega
    have hnc : h.aponta x (g (num-2,0)) .Sul = some (g (num-1,0)) := by
      rw [he.aponta hl hn fun _ => le_rfl]
      refine hl.eq_some hn hc (Prod.ext ?_ rfl)
      change num-2+1 = num-1
      omega
    have hvivon := he.vivo_cell hl hv hn fun h => absurd h (by omega)
    have hne : g (num-1,0) ≠ g (num-2,0) := fun heq => by
      have := congrArg Prod.fst (hl.inj hc hn heq)
      change num-1 = num-2 at this
      omega
    obtain ⟨h',hr,hvivo,hap⟩ := primeiroSemNo_com_norte hvivoc hvivon hcn hnc hne
    refine ⟨h',by rw [hr,if_pos hnum2],he.passo hl le_rfl (by omega)
      (fun b => (hvivo b).trans vivo_sem) fun b d => ?_⟩
    rw [hap,aponta_sem,aponta_semSul]
    simp only [hnum2,true_and]
  · have hcn : h.aponta x (g (num-1,0)) .Norte = none := by
      rw [he.aponta hl hc fun h => absurd h (by omega)]
      refine hl.border _ hc _ fun hq => ?_
      have := (mem_Retangulo.mp hq).1
      change 0 ≤ num-1+ -1 at this
      omega
    refine ⟨_,by rw [primeiroSemNo_sem_norte hvivoc hcn,if_neg hnum2],
      he.passo hl le_rfl (by omega) (fun b => vivo_sem) fun b d => ?_⟩
    rw [aponta_sem,if_neg fun h => hnum2 h.1.1]

omit hv he in
/-- What is left is linked. -/
theorem Encolhendo.ligada (he : Encolhendo x num comp h₀ g (-1) h) :
    Linked desl (h.aponta x) g (Retangulo (num-1) comp) := by
  have hlim {p : ℤ × ℤ} (hp : p ∈ Retangulo (num-1) comp) (hrow : p.1 = num-2) (d : Coord) :
      h.aponta x (g p) d = if d.aoSul = true then none else h₀.aponta x (g p) d := by
    have hp' : p = (num-2,p.2) := Prod.ext hrow rfl
    rw [mem_Retangulo] at hp
    rw [hp']
    exact he.limpo (by omega) p.2 (by omega) (by omega) d
  have hsub : Retangulo (num-1) comp ⊆ Retangulo num comp := by
    intro p hp
    rw [mem_Retangulo] at hp ⊢
    omega
  refine hl.restrict hsub ?_ ?_
  · intro p hp d hin hout
    rw [mem_Retangulo] at hin hout
    have hsul : d.aoSul = true ∧ p.1 = num-2 := by
      rw [mem_Retangulo] at hp
      cases d
      all_goals
        simp only [desl,Prod.fst_add,Prod.snd_add] at hin hout
        first
        | exact ⟨rfl,by omega⟩
        | omega
    rw [hlim hp hsul.2,if_pos hsul.1]
  · intro p hp d hkeep
    by_cases hrow : p.1 = num-2
    · rw [hlim hp hrow]
      split
      · rename_i hd
        refine (hl.border p (hsub hp) d fun hin => ?_).symm
        have hin' := hkeep hin
        rw [mem_Retangulo] at hin'
        cases d <;> simp only [desl,Prod.fst_add,Prod.snd_add,Coord.aoSul] at hin' hd
        all_goals first | omega | contradiction
      · rfl
    · exact he.aponta hl (hsub hp) (fun h => absurd h hrow) d

end Linha

section Remover

theorem remover_vazia (hm : m.pElemCorr = none) : remover x h m = .ok (h,m,.MatrizVazia) :=
  if_pos hm

/-- The current node goes to the end of the last line. -/
theorem Grade.canto (hg : Grade x h m g) {p : ℤ × ℤ}
    (hp : p ∈ Retangulo (x.num m) (x.comp m)) (hm : m.pElemCorr = some (g p)) :
    (AvancaUltimaColuna h m >>= fun m => AvancaUltimaLinha h m) =
      .ok { m with pElemCorr := some (g (x.num m-1,x.comp m-1)) } := by
  cases x with
  | linha =>
    obtain ⟨hq,hL⟩ := avanca_eq hg.ligada hg.vivos hp hm (d := .Leste) (by decide)
    obtain ⟨-,hS⟩ := avanca_eq (m := { m with pElemCorr := some (g (p.1,Eixo.linha.comp m-1)) })
      hg.ligada hg.vivos hq rfl (d := .Sul) (by decide)
    rw [AvancaUltimaColuna,AvancaUltimaLinha]
    exact (congrArg (· >>= fun m => avanca .Sul h m) hL).trans hS
  | coluna =>
    obtain ⟨hq,hL⟩ := avanca_eq hg.ligada hg.vivos hp hm (d := .Sul) (by decide)
    obtain ⟨-,hS⟩ := avanca_eq (m := { m with pElemCorr := some (g (Eixo.coluna.num m-1,p.2)) })
      hg.ligada hg.vivos hq rfl (d := .Leste) (by decide)
    rw [AvancaUltimaColuna,AvancaUltimaLinha]
    exact (congrArg (· >>= fun m => avanca .Sul h m) hL).trans hS

theorem remover_ok (hg : Grade x h m g) {p : ℤ × ℤ}
    (hp : p ∈ Retangulo (x.num m) (x.comp m)) (hm : m.pElemCorr = some (g p)) :
    ∃ h' m', remover x h m = .ok (h',m',.OK) ∧ Grade x h' m' g ∧ Preserva x h m g h' m' g := by
  have hpr := mem_Retangulo.mp hp
  have he₀ : Encolhendo x (x.num m) (x.comp m) h g (x.comp m-1) h := .inicio (by omega)
  have hf : (x.comp m-1).toNat < h.vivos.card := by
    apply lt_card_vivos (d := .Oeste) (p := (x.num m-1,x.comp m-1)) hg.ligada.inj hg.vivos
    intro k hk
    simp only [mem_Retangulo,longe,desl]
    omega
  obtain ⟨h₁,hrs,he₁⟩ := he₀.anterioresSemNo hg.ligada hg.vivos (by omega) (by omega)
    (n := (x.comp m-1).toNat) (by omega) hf
  obtain ⟨h',hr,he⟩ := he₁.primeiroSemNo hg.ligada hg.vivos (by omega) (by omega)
  let q : Ponteiro := if 2 ≤ x.num m then some (g (x.num m-2,0)) else none
  let c : ℤ := if x.num m-1 = 0 then 0 else x.comp m
  have hset : Retangulo (x.num m-1) c = Retangulo (x.num m-1) (x.comp m) := by
    ext r
    rw [mem_Retangulo,mem_Retangulo]
    by_cases h0 : x.num m-1 = 0
    · omega
    · rw [show c = x.comp m from if_neg h0]
  have hsub {r : ℤ × ℤ} (hr : r ∈ Retangulo (x.num m-1) (x.comp m)) :
      r ∈ Retangulo (x.num m) (x.comp m) ∧ r.1 ≠ x.num m-1 := by
    rw [mem_Retangulo] at hr ⊢
    omega
  refine ⟨h',x.muda { m with pElemCorr := q } (x.num m-1) c,?_,⟨?_,?_,?_⟩,?_⟩
  · rw [remover,if_neg (by rw [hm]; exact Option.some_ne_none _),← bind_assoc,hg.canto hp hm,ok_bind]
    change (Matriz.anterioresSemNo x h.vivos.card h (some _) >>= _) = _
    rw [hrs,ok_bind]
    change (Matriz.primeiroSemNo x h₁ (some _) >>= _) = _
    rw [hr,ok_bind,num_corr,comp_corr]
  · rw [num_muda,comp_muda,hset]
    exact he.ligada hg.ligada
  · rw [num_muda,comp_muda,hset]
    intro r hr
    exact he.vivo_cell hg.ligada hg.vivos (hsub hr).1 fun h => absurd h (hsub hr).2
  · rw [num_muda,comp_muda,corr_muda]
    by_cases hnum2 : 2 ≤ x.num m
    · refine .inr ⟨(x.num m-2,0),?_,if_pos hnum2⟩
      rw [hset,mem_Retangulo]
      omega
    · exact .inl ⟨if_neg hnum2,by omega,if_pos (by omega)⟩
  · rw [Preserva,num_muda,comp_muda,hset]
    intro b hb hout
    refine ⟨(he.vivo b).mpr ⟨hb,fun j hj hjc heq => ?_⟩,he.resto b fun hnum2 j hj hjc heq => ?_,
      fun r hr => hout r (hsub hr).1⟩
    · exact hout (x.num m-1,j) (mem_Retangulo.mpr (by omega)) heq.symm
    · exact hout (x.num m-2,j) (mem_Retangulo.mpr (by omega)) heq.symm

end Remover

end PucRio.Matriz
