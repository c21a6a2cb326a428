import PucRio.Lib.LinkedGrid
import PucRio.Matriz.Matriz
import Mathlib.Algebra.Group.Prod
import Mathlib.Data.Finset.Range
import Mathlib.Order.Interval.Finset.Nat

/-! The shape of a matrix: a full grid of nodes, each linked to its neighbours in the eight directions.
Along either axis, a matrix is seen with its lines first. -/
namespace PucRio.Matriz

/-- Where the neighbour in a direction is: down and to the right. -/
def desl : Coord → ℤ × ℤ
  | .Norte => (-1,0)
  | .Nordeste => (-1,1)
  | .Leste => (0,1)
  | .Sudeste => (1,1)
  | .Sul => (1,0)
  | .Sudoeste => (1,-1)
  | .Oeste => (0,-1)
  | .Noroeste => (-1,-1)

def Coord.oposta : Coord → Coord
  | Norte => Sul
  | Nordeste => Sudoeste
  | Leste => Oeste
  | Sudeste => Noroeste
  | Sul => Norte
  | Sudoeste => Nordeste
  | Oeste => Leste
  | Noroeste => Sudeste

theorem desl_oposta (d : Coord) : desl d.oposta = -desl d := by cases d <;> rfl

theorem desl_ne_zero (d : Coord) : desl d ≠ 0 := by cases d <;> decide

theorem coord_coord (x : Eixo) (d : Coord) : x.coord (x.coord d) = d := by
  cases x
  · rfl
  · cases d <;> rfl

theorem coord_inj {x : Eixo} {d e : Coord} : x.coord d = x.coord e ↔ d = e := by
  refine ⟨fun h => ?_,congrArg _⟩
  rw [← coord_coord x d,h,coord_coord]

section Memoria
variable {h : Memoria} {a b : Endereco} {d e : Coord} {q : Ponteiro} {x : Eixo} {A : Alocador}

/-- The pointers as they are seen along an axis. -/
def Memoria.aponta (h : Memoria) (x : Eixo) (a : Endereco) (d : Coord) : Ponteiro :=
  (h.no a).pEntrada (x.coord d)

theorem ok_bind {α β : Type} (a : α) (f : α → Except Falha β) : (Except.ok a >>= f) = f a := rfl

/-- An address of a node. -/
def Memoria.Vivo (h : Memoria) (a : Endereco) : Prop := a ∈ h.vivos

theorem alvo_some (ha : h.Vivo a) : h.alvo (some a) = .ok a := if_pos ha

theorem le_some (ha : h.Vivo a) : h.le (some a) (x.coord d) = .ok (h.aponta x a d) := by
  rw [Memoria.le,alvo_some ha]
  rfl

theorem grava_some (ha : h.Vivo a) : h.grava (some a) d q = .ok (h.poe a d q) := by
  rw [Memoria.grava,alvo_some ha]
  rfl

theorem vivo_poe : (h.poe a d q).Vivo b ↔ h.Vivo b := Iff.rfl

theorem aponta_poe : (h.poe a (x.coord d) q).aponta x b e =
    if b = a ∧ e = d then q else h.aponta x b e := by
  change (Function.update h.no a _ b).pEntrada (x.coord e) = _
  by_cases hb : b = a
  · subst hb
    rw [Function.update_self]
    change Function.update (h.no b).pEntrada (x.coord d) q (x.coord e) = _
    by_cases he : e = d
    · rw [he,Function.update_self,if_pos ⟨rfl,rfl⟩]
    · rw [Function.update_of_ne fun heq => he (coord_inj.mp heq),if_neg fun heq => he heq.2]
      rfl
  · rw [Function.update_of_ne hb,if_neg fun heq => hb heq.1]
    rfl

/-- What a node contains is what it points to along either axis. -/
theorem no_eq_iff {h' : Memoria} (x : Eixo) :
    h'.no a = h.no b ↔ ∀ d, h'.aponta x a d = h.aponta x b d := by
  constructor
  · intro heq d
    rw [Memoria.aponta,heq]
    rfl
  · intro hall
    have hno : (h'.no a).pEntrada = (h.no b).pEntrada := by
      funext d
      rw [← coord_coord x d]
      exact hall _
    exact congrArg No.mk hno

theorem CriarNo_livre : ¬ h.Vivo (h.CriarNo A).2 := A.livre _ _

theorem vivo_CriarNo : (h.CriarNo A).1.Vivo b ↔ b = (h.CriarNo A).2 ∨ h.Vivo b :=
  Finset.mem_insert

theorem aponta_CriarNo : (h.CriarNo A).1.aponta x b e =
    if b = (h.CriarNo A).2 then none else h.aponta x b e := by
  change (Function.update h.no (h.CriarNo A).2 _ b).pEntrada (x.coord e) = _
  split
  · rename_i hb
    rw [hb,Function.update_self]
  · rename_i hb
    rw [Function.update_of_ne hb]
    rfl

end Memoria

/-- The cells of so many lines of so many cells. -/
def Retangulo (num comp : ℤ) : Set (ℤ × ℤ) := {p | 0 ≤ p.1 ∧ p.1 < num ∧ 0 ≤ p.2 ∧ p.2 < comp}

theorem mem_Retangulo {num comp : ℤ} {p : ℤ × ℤ} :
    p ∈ Retangulo num comp ↔ 0 ≤ p.1 ∧ p.1 < num ∧ 0 ≤ p.2 ∧ p.2 < comp := Iff.rfl

section Eixo
variable {x : Eixo} {m : Cabeca} {q : Ponteiro} {num comp : ℤ}

@[simp] theorem num_corr : x.num { m with pElemCorr := q } = x.num m := by cases x <;> rfl

@[simp] theorem comp_corr : x.comp { m with pElemCorr := q } = x.comp m := by cases x <;> rfl

@[simp] theorem num_muda : x.num (x.muda m num comp) = num := by cases x <;> rfl

@[simp] theorem comp_muda : x.comp (x.muda m num comp) = comp := by cases x <;> rfl

@[simp] theorem corr_muda : (x.muda m num comp).pElemCorr = m.pElemCorr := by cases x <;> rfl

end Eixo

/-- The nodes `g` of a matrix, along an axis. -/
structure Grade (x : Eixo) (h : Memoria) (m : Cabeca) (g : ℤ × ℤ → Endereco) : Prop where
  ligada : Linked desl (h.aponta x) g (Retangulo (x.num m) (x.comp m))
  vivos : ∀ p ∈ Retangulo (x.num m) (x.comp m), h.Vivo (g p)
  corr : m.pElemCorr = none ∧ x.num m = 0 ∧ x.comp m = 0 ∨
    ∃ p ∈ Retangulo (x.num m) (x.comp m), m.pElemCorr = some (g p)

/-- What is not a node of the matrix is left alone, and is no node of it afterwards. -/
def Preserva (x : Eixo) (h : Memoria) (m : Cabeca) (g : ℤ × ℤ → Endereco) (h' : Memoria)
    (m' : Cabeca) (g' : ℤ × ℤ → Endereco) : Prop :=
  ∀ b, h.Vivo b → (∀ p ∈ Retangulo (x.num m) (x.comp m), g p ≠ b) →
    h'.Vivo b ∧ h'.no b = h.no b ∧ ∀ p ∈ Retangulo (x.num m') (x.comp m'), g' p ≠ b

section Andar
variable {x : Eixo} {h : Memoria} {g : ℤ × ℤ → Endereco} {D : Set (ℤ × ℤ)} {d : Coord}

/-- The cell `n` steps away. -/
def longe (d : Coord) (n : ℕ) (p : ℤ × ℤ) : ℤ × ℤ := (p.1+n*(desl d).1,p.2+n*(desl d).2)

theorem longe_zero (p : ℤ × ℤ) : longe d 0 p = p := by
  rw [longe,Nat.cast_zero,zero_mul,zero_mul,add_zero,add_zero]

theorem longe_succ (n : ℕ) (p : ℤ × ℤ) : longe d (n+1) p = longe d n (p+desl d) := by
  apply Prod.ext
  · change p.1+(n+1 : ℕ)*(desl d).1 = p.1+(desl d).1+n*(desl d).1
    rw [Nat.cast_succ,add_one_mul,add_comm (n*(desl d).1),add_assoc]
  · change p.2+(n+1 : ℕ)*(desl d).2 = p.2+(desl d).2+n*(desl d).2
    rw [Nat.cast_succ,add_one_mul,add_comm (n*(desl d).2),add_assoc]

theorem longe_inj {p : ℤ × ℤ} {m n : ℕ} (heq : longe d m p = longe d n p) : m = n := by
  obtain ⟨h₁,h₂⟩ := Prod.mk.inj heq
  cases d
  all_goals
    simp only [desl] at h₁ h₂
    omega

/-- A walk of `n` steps inside the grid, to where it ends. -/
theorem andar_eq (hl : Linked desl (h.aponta x) g D) (hv : ∀ p ∈ D, h.Vivo (g p)) {n : ℕ}
    {p : ℤ × ℤ} (hin : ∀ k ≤ n, longe d k p ∈ D) (hout : longe d (n+1) p ∉ D) {fuel : ℕ}
    (hf : n < fuel) :
    andar (x.coord d) h fuel (some (g p)) = .ok (some (g (longe d n p))) := by
  induction n generalizing p fuel with
  | zero =>
    obtain ⟨fuel,rfl⟩ := Nat.exists_eq_add_one.mpr hf
    have hp : p ∈ D := longe_zero (d := d) p ▸ hin 0 le_rfl
    have hq : p+desl d ∉ D := by
      rwa [longe_succ,longe_zero] at hout
    rw [andar,le_some (hv p hp),ok_bind,hl.border p hp d hq,if_pos rfl,longe_zero]
  | succ n ih =>
    obtain ⟨fuel,rfl⟩ := Nat.exists_eq_add_one.mpr (Nat.zero_lt_of_lt hf)
    have hp : p ∈ D := longe_zero (d := d) p ▸ hin 0 (Nat.zero_le _)
    have hq : p+desl d ∈ D := by
      have := hin 1 (by omega)
      rwa [longe_succ,longe_zero] at this
    rw [andar,le_some (hv p hp),ok_bind,hl.inside p hp d hq,if_neg (Option.some_ne_none _),
      longe_succ]
    apply ih
    · intro k hk
      rw [← longe_succ]
      exact hin (k+1) (by omega)
    · rwa [← longe_succ]
    · omega

/-- The walk ends before it has met all nodes. -/
theorem lt_card_vivos (hinj : Set.InjOn g D) (hv : ∀ p ∈ D, h.Vivo (g p)) {n : ℕ} {p : ℤ × ℤ}
    (hin : ∀ k ≤ n, longe d k p ∈ D) : n < h.vivos.card := by
  have hle : (Finset.range (n+1)).card ≤ h.vivos.card := by
    apply Finset.card_le_card_of_injOn fun k => g (longe d k p)
    · intro k hk
      exact hv _ (hin k (Nat.lt_succ_iff.mp (Finset.mem_range.mp hk)))
    · intro k hk l hl heq
      exact longe_inj (hinj (hin k (Nat.lt_succ_iff.mp (Finset.mem_range.mp hk)))
        (hin l (Nat.lt_succ_iff.mp (Finset.mem_range.mp hl))) heq)
  rwa [Finset.card_range] at hle

/-- The last cell in a direction. -/
def borda (num comp : ℤ) : Coord → ℤ × ℤ → ℤ × ℤ
  | .Norte,p => (0,p.2)
  | .Sul,p => (num-1,p.2)
  | .Oeste,p => (p.1,0)
  | .Leste,p => (p.1,comp-1)
  | _,p => p

/-- How far it is. -/
def distancia (num comp : ℤ) : Coord → ℤ × ℤ → ℕ
  | .Norte,p => p.1.toNat
  | .Sul,p => (num-1-p.1).toNat
  | .Oeste,p => p.2.toNat
  | .Leste,p => (comp-1-p.2).toNat
  | _,_ => 0

variable {m : Cabeca} {num comp : ℤ}

theorem longe_distancia {p : ℤ × ℤ} (hp : p ∈ Retangulo num comp)
    (hd : d = .Norte ∨ d = .Sul ∨ d = .Oeste ∨ d = .Leste) :
    longe d (distancia num comp d p) p = borda num comp d p ∧
      (∀ k ≤ distancia num comp d p, longe d k p ∈ Retangulo num comp) ∧
      longe d (distancia num comp d p+1) p ∉ Retangulo num comp := by
  obtain ⟨h1,h2,h3,h4⟩ := hp
  rcases hd with rfl | rfl | rfl | rfl
  all_goals
    refine ⟨?_,fun k hk => ?_,?_⟩
    · apply Prod.ext <;> simp only [longe,desl,borda,distancia] <;> omega
    · simp only [distancia] at hk
      simp only [mem_Retangulo,longe,desl]
      omega
    · simp only [mem_Retangulo,longe,desl,distancia]
      omega

/-- `Avanca…` brings the current node to the border. -/
theorem avanca_eq (hl : Linked desl (h.aponta x) g (Retangulo num comp))
    (hv : ∀ p ∈ Retangulo num comp, h.Vivo (g p)) {p : ℤ × ℤ} (hp : p ∈ Retangulo num comp)
    (hm : m.pElemCorr = some (g p)) (hd : d = .Norte ∨ d = .Sul ∨ d = .Oeste ∨ d = .Leste) :
    borda num comp d p ∈ Retangulo num comp ∧
      avanca (x.coord d) h m = .ok { m with pElemCorr := some (g (borda num comp d p)) } := by
  obtain ⟨hn,hin,hout⟩ := longe_distancia hp hd
  rw [← hn]
  refine ⟨hin _ le_rfl,?_⟩
  rw [avanca,hm,if_neg (Option.some_ne_none _),
    andar_eq hl hv hin hout (lt_card_vivos hl.inj hv hin)]
  rfl

end Andar

end PucRio.Matriz
