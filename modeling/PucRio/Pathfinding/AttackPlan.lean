import PucRio.Lib.HillClimbing
import PucRio.Pathfinding.AttackStrategy
import Mathlib.Algebra.Order.BigOperators.Group.List
import Mathlib.Algebra.Order.Field.Rat
import Mathlib.Algebra.Order.Monoid.Unbundled.WithTop
import Mathlib.Algebra.Order.Archimedean.Basic

/-! How the plan of the attacks comes about: a random plan, improved by random changes while it gets
colder. A base that no plane attacks costs infinitely much. -/
namespace PucRio.Pathfinding

/-- The difficulties of the bases, from one on, and the firepowers of the planes. -/
structure Program where
  enemyBaseList : ℕ → ℤ
  firepower : ℕ → ℚ
  enemyBaseList_pos : ∀ i < 11, 0 < enemyBaseList (i+1)
  firepower_pos : ∀ j < 5, 0 < firepower j

/-- A positive number divided by one that is not negative. -/
def divide (difficulty : ℤ) (firepowerSum : ℚ) : WithTop ℚ :=
  if firepowerSum = 0 then ⊤ else ((difficulty/firepowerSum : ℚ) : WithTop ℚ)

/-- `Utils.randString` with the characters 0 and 1: which of them is drawn at each place. -/
def randString (draws : ℕ → Fin 2) : Strategy := fun idx => ['0','1'].get (draws idx)

/-- The five places that `disturb` draws. -/
abbrev Draw := Fin 5 → Fin 55

def Draw.places (draw : Draw) : List ℕ := List.ofFn fun k => (draw k).val

/-- The first valid plan drawn. `none`: there is none so far, or more has been drawn. -/
def genRandomAttackStrategy : List (ℕ → Fin 2) → Option Strategy
  | [] => none
  | draws::rest =>
    if validateStrategy (randString draws) = false then genRandomAttackStrategy rest
    else if rest.isEmpty then some (randString draws) else none

section Cost
variable (program : Program) (strategy : Strategy)

def firepowerSum (i : ℕ) : ℚ :=
  (List.range 5).foldl (fun sum j =>
    if strategy (5*i+j) = '1' then sum+program.firepower j else sum) 0

def getCost : WithTop ℚ :=
  (List.range 11).foldl (fun cost i =>
    cost+divide (program.enemyBaseList (i+1)) (firepowerSum program strategy i)) 0

/-- The costs that are kept in `bases`. -/
def baseCost (order : ℕ) : WithTop ℚ :=
  divide (program.enemyBaseList order) (firepowerSum program strategy (order-1))

/-- The loop `while (temperature > 1)`, which draws just these places. An invalid plan does not cool
the system. -/
def cool (coolingRate : ℚ) : Strategy → ℚ → List Draw → Option Strategy
  | strategy,temperature,[] => if temperature > 1 then none else some strategy
  | strategy,temperature,draw::draws =>
    if temperature > 1 then
      let newStrategy := disturb draw.places strategy
      if validateStrategy newStrategy = false then cool coolingRate strategy temperature draws
      else if getCost program newStrategy < getCost program strategy then
        cool coolingRate newStrategy (temperature*(1-coolingRate)) draws
      else cool coolingRate strategy (temperature*(1-coolingRate)) draws
    else none

/-- The plan from which `bases` is filled. -/
def Refresh (temperature coolingRate : ℚ) (strings : List (ℕ → Fin 2)) (draws : List Draw) :
    Option Strategy :=
  (genRandomAttackStrategy strings).bind fun strategy =>
    cool program coolingRate strategy temperature draws

end Cost

/-- Each base is attacked. -/
def Covers (strategy : Strategy) : Prop := ∀ i < 11, airplanes strategy i ≠ []

instance (strategy : Strategy) : Decidable (Covers strategy) :=
  inferInstanceAs (Decidable (∀ i < 11, airplanes strategy i ≠ []))

/-- No plane is used more often than it has energy, not all of them that often, and the plan is no
dearer than the initial one. -/
structure Affordable (program : Program) (initial plan : Strategy) : Prop where
  plane : ∀ j < 5, (List.range 11).countP (fun i => j ∈ airplanes plan i) ≤ 5
  total : ((List.range 11).map fun i => (airplanes plan i).length).sum ≤ 24
  cost : getCost program plan ≤ getCost program initial

/-- And each base has a plane and a finite cost. -/
structure CarriedOut (program : Program) (initial plan : Strategy) : Prop
    extends Affordable program initial plan where
  covers : Covers plan
  finite : ∀ order attack, bases (baseCost program plan) plan order = some attack → attack.cost ≠ ⊤

section Costs
variable {program : Program} {strategy : Strategy} {i : ℕ}

theorem foldl_ite_add (p : ℕ → Prop) [DecidablePred p] (f : ℕ → ℚ) (l : List ℕ) (c : ℚ) :
    l.foldl (fun sum j => if p j then sum+f j else sum) c = c+((l.filter p).map f).sum := by
  induction l generalizing c with
  | nil => simp
  | cons j l ih =>
    rw [List.foldl_cons,ih]
    by_cases h : p j <;> simp [h,add_assoc]

theorem foldl_add_eq_top (f : ℕ → WithTop ℚ) (l : List ℕ) (c : WithTop ℚ) :
    l.foldl (fun cost i => cost+f i) c = ⊤ ↔ c = ⊤ ∨ ∃ i ∈ l, f i = ⊤ := by
  induction l generalizing c with
  | nil => simp
  | cons i l ih =>
    rw [List.foldl_cons,ih,WithTop.add_eq_top]
    simp [or_assoc]

theorem divide_eq_top {difficulty : ℤ} {sum : ℚ} : divide difficulty sum = ⊤ ↔ sum = 0 := by
  unfold divide
  split_ifs with h
  · exact iff_of_true rfl h
  · exact iff_of_false (WithTop.coe_ne_top) h

/-- Only where there is no plane is there no firepower. -/
theorem firepowerSum_eq_zero : firepowerSum program strategy i = 0 ↔ airplanes strategy i = [] := by
  have hsum : firepowerSum program strategy i =
      ((airplanes strategy i).map program.firepower).sum := by
    rw [firepowerSum,foldl_ite_add,zero_add]
    rfl
  rw [hsum]
  constructor
  · intro h
    by_contra hne
    have hpos := List.sum_pos ((airplanes strategy i).map program.firepower) (fun x hx => by
      obtain ⟨j,hj,rfl⟩ := List.mem_map.mp hx
      exact program.firepower_pos j (mem_airplanes.mp hj).1) (by simpa using hne)
    exact hpos.ne' h
  · intro h
    rw [h]
    rfl

theorem getCost_ne_top (program : Program) (strategy : Strategy) :
    getCost program strategy ≠ ⊤ ↔ Covers strategy := by
  rw [Ne,getCost,foldl_add_eq_top]
  simp only [divide_eq_top,firepowerSum_eq_zero,List.mem_range,WithTop.zero_ne_top,false_or,
    not_exists,not_and]
  rfl

/-- A base that is attacked has a finite cost in `bases`. -/
theorem finite_of_covers (h : Covers strategy) {order : ℕ} {attack : EnemyBaseAttack (WithTop ℚ)}
    (hattack : bases (baseCost program strategy) strategy order = some attack) :
    attack.cost ≠ ⊤ := by
  unfold bases at hattack
  split_ifs at hattack with horder
  obtain rfl := Option.some.inj hattack
  rw [Ne,baseCost,divide_eq_top,firepowerSum_eq_zero]
  exact h (order-1) (by omega)

end Costs

section Bounds
variable {strategy : Strategy}

theorem length_attacks :
    (attacks strategy).length =
      ((List.range 11).map fun i => (airplanes strategy i).length).sum := by
  have hrange : List.range 55 = (List.range 11).flatMap fun i => (List.range 5).map (5*i+·) := by
    decide
  rw [attacks,hrange,List.filter_flatMap,List.length_flatMap]
  congr 1
  apply List.map_congr_left
  intro i _
  rw [List.filter_map,List.length_map]
  rfl

theorem total_le_of_validateStrategy (h : validateStrategy strategy = true) :
    ((List.range 11).map fun i => (airplanes strategy i).length).sum ≤ 24 := by
  unfold validateStrategy at h
  split_ifs at h with hsum
  rw [← length_attacks]
  omega

theorem countP_le_of_validateStrategy (h : validateStrategy strategy = true) (j : ℕ) :
    (List.range 11).countP (fun i => j ∈ airplanes strategy i) ≤ 5 := by
  rw [List.countP_eq_length_filter]
  apply length_le_of_validateStrategy (j := j) h (List.nodup_range.filter _)
  intro i hi
  simpa using hi

end Bounds

section Refresh
variable {program : Program} {initial plan strategy : Strategy} {temperature coolingRate : ℚ}
  {strings : List (ℕ → Fin 2)} {draws : List Draw}

theorem genRandomAttackStrategy_valid (h : genRandomAttackStrategy strings = some initial) :
    validateStrategy initial = true := by
  induction strings with
  | nil => cases h
  | cons string rest ih =>
    rw [genRandomAttackStrategy] at h
    split_ifs at h with hinvalid
    · exact ih h
    · obtain rfl := Option.some.inj h
      exact eq_true_of_ne_false hinvalid

/-- The changes of `Refresh`, taken where they are cheaper. -/
theorem anneal_eq_climb (strategy : Strategy) (draws : List Draw) :
    anneal (fun a b => getCost program a < getCost program b) strategy (draws.map Draw.places) =
      climb validateStrategy (getCost program) (fun draw => disturb draw.places) strategy
        draws := by
  rw [anneal,climb,List.foldl_map]
  congr 1
  funext strategy draw
  by_cases hvalid : validateStrategy (disturb draw.places strategy) = true
  · simp [hvalid]
  · simp [Bool.not_eq_true _ ▸ hvalid]

/-- While it lasts, the loop does nothing else. -/
theorem anneal_of_cool (h : cool program coolingRate strategy temperature draws = some plan) :
    anneal (fun a b => getCost program a < getCost program b) strategy (draws.map Draw.places) =
      plan := by
  induction draws generalizing strategy temperature with
  | nil =>
    rw [cool] at h
    split_ifs at h
    exact Option.some.inj h
  | cons draw draws ih =>
    rw [cool] at h
    rw [List.map_cons,anneal,List.foldl_cons]
    dsimp only at h ⊢
    split_ifs at h with htemperature hinvalid hcheaper
    · rw [if_pos hinvalid]
      exact ih h
    · rw [if_neg hinvalid,if_pos (decide_eq_true hcheaper)]
      exact ih h
    · rw [if_neg hinvalid,if_neg (by simpa using hcheaper)]
      exact ih h

theorem affordable_of_refresh (hinitial : genRandomAttackStrategy strings = some initial)
    (h : Refresh program temperature coolingRate strings draws = some plan) :
    Affordable program initial plan := by
  rw [Refresh,hinitial,Option.bind_some] at h
  have hplan := anneal_of_cool h
  have hvalid : validateStrategy plan = true := by
    rw [← hplan]
    exact validateStrategy_anneal _ _ (genRandomAttackStrategy_valid hinitial)
  refine ⟨fun j _ => countP_le_of_validateStrategy hvalid j,total_le_of_validateStrategy hvalid,?_⟩
  rw [← hplan,anneal_eq_climb]
  exact cost_climb_le initial draws

/-- The plan is always affordable. It can be carried out exactly where the initial plan has a plane
for each base already, or one of the changes drawn gives the initial plan one for each. -/
theorem carriedOut_iff (hinitial : genRandomAttackStrategy strings = some initial)
    (h : Refresh program temperature coolingRate strings draws = some plan) :
    Affordable program initial plan ∧ (CarriedOut program initial plan ↔
      Covers initial ∨ ∃ draw ∈ draws, validateStrategy (disturb draw.places initial) = true ∧
        Covers (disturb draw.places initial)) := by
  have haffordable := affordable_of_refresh hinitial h
  have hcovers : CarriedOut program initial plan ↔ Covers plan :=
    ⟨fun hplan => hplan.covers,fun hplan => ⟨haffordable,hplan,fun _ _ => finite_of_covers hplan⟩⟩
  refine ⟨haffordable,hcovers.trans ?_⟩
  rw [Refresh,hinitial,Option.bind_some] at h
  rw [← getCost_ne_top program plan,← anneal_of_cool h,anneal_eq_climb,cost_climb_ne_top_iff]
  simp only [getCost_ne_top]

/-- A change that leads nowhere, drawn over and over, and the loop ends. -/
theorem exists_cool_replicate {draw : Draw}
    (hvalid : validateStrategy (disturb draw.places strategy) = true)
    (hcost : ¬ getCost program (disturb draw.places strategy) < getCost program strategy)
    (h0 : 0 < coolingRate) (temperature : ℚ) :
    ∃ n, cool program coolingRate strategy temperature (List.replicate n draw) = some strategy := by
  have hsteps (n : ℕ) : ∀ temperature, temperature*(1-coolingRate)^n ≤ 1 →
      ∃ n, cool program coolingRate strategy temperature (List.replicate n draw) =
        some strategy := by
    induction n with
    | zero =>
      intro temperature hle
      rw [pow_zero,mul_one] at hle
      exact ⟨0,if_neg (not_lt.mpr hle)⟩
    | succ n ih =>
      intro temperature hle
      by_cases htemperature : temperature > 1
      · obtain ⟨k,hk⟩ := ih (temperature*(1-coolingRate)) (by rwa [mul_assoc,← pow_succ'])
        refine ⟨k+1,?_⟩
        rw [List.replicate_succ,cool,if_pos htemperature]
        dsimp only
        rw [if_neg (by simp [hvalid]),if_neg hcost,hk]
      · exact ⟨0,if_neg htemperature⟩
  by_cases hle : temperature ≤ 0
  · exact hsteps 0 temperature (by rw [pow_zero,mul_one]; linarith)
  · obtain ⟨n,hn⟩ := exists_pow_lt_of_lt_one (one_div_pos.mpr (not_le.mp hle)) (sub_lt_self 1 h0)
    refine hsteps n temperature ?_
    rw [mul_comm]
    exact ((lt_div_iff₀ (not_le.mp hle)).mp hn).le

end Refresh

section Witness

theorem difficulties_pos : ∀ i < 11,
    (0 : ℤ) < [60,65,70,75,80,85,90,95,100,110,120].getD (i+1-1) 60 := by
  decide

theorem firepowers_pos : ∀ j < 5, (0 : ℚ) < [3/2,7/5,13/10,6/5,11/10].getD j 1 := by
  decide +kernel

/-- The tables as they are filled in at the start. -/
def defaultProgram : Program where
  enemyBaseList order := [60,65,70,75,80,85,90,95,100,110,120].getD (order-1) 60
  firepower j := [3/2,7/5,13/10,6/5,11/10].getD j 1
  enemyBaseList_pos := difficulties_pos
  firepower_pos := firepowers_pos

theorem genRandomAttackStrategy_singleton (draws : ℕ → Fin 2)
    (h : validateStrategy (randString draws) = true) :
    genRandomAttackStrategy [draws] = some (randString draws) := by
  rw [genRandomAttackStrategy,if_neg (by simp [h]),List.isEmpty_nil,if_pos rfl]

/-- The places of the first base. -/
def firstBase : Draw := fun k => Fin.ofNat 55 k

/-- One plane for each base. -/
def oneEach (idx : ℕ) : Fin 2 :=
  if idx/5%5 = idx%5 then Fin.last 1 else Fin.castSucc (Fin.last 0)

theorem carriedOut_iff_oneEach : ∃ plan,
    Refresh defaultProgram 2 (1/2) [oneEach] [firstBase] = some plan ∧
      CarriedOut defaultProgram (randString oneEach) plan := by
  have hinitial := genRandomAttackStrategy_singleton oneEach (by decide)
  have hsome : (Refresh defaultProgram 2 (1/2) [oneEach] [firstBase]).isSome = true := by
    decide +kernel
  obtain ⟨plan,h⟩ := Option.isSome_iff_exists.mp hsome
  exact ⟨plan,h,(carriedOut_iff hinitial h).2.mpr (.inl (by decide))⟩

/-- The first plan drawn attacks no base, and no five changes make up for that. -/
theorem not_carriedOut_nobody : ∃ draws plan,
    genRandomAttackStrategy [fun _ => 0] = some plan ∧
      Refresh defaultProgram 10000 (1/1000) [fun _ => 0] draws = some plan ∧
        ¬ CarriedOut defaultProgram plan plan := by
  have hinitial := genRandomAttackStrategy_singleton (fun _ => 0) (by decide)
  have hcost : ¬ getCost defaultProgram (disturb firstBase.places (randString fun _ => 0)) <
      getCost defaultProgram (randString fun _ => 0) := by
    decide +kernel
  obtain ⟨n,hn⟩ : ∃ n, cool defaultProgram (1/1000) (randString fun _ => 0) 10000
      (List.replicate n firstBase) = some (randString fun _ => 0) :=
    exists_cool_replicate (by decide) hcost (by norm_num) 10000
  refine ⟨List.replicate n firstBase,randString fun _ => 0,hinitial,?_,fun h => ?_⟩
  · rw [Refresh,hinitial,Option.bind_some,hn]
  · exact absurd h.covers (by decide)

end Witness

end PucRio.Pathfinding
