import Mathlib.Data.List.ReduceOption
import PucRio.Monga.Ast

/-! The declarations of the grammar, and the lists that its actions build of them. -/
namespace PucRio.Monga

section Grammar

/-- `type : basetype | type '[' ']'` -/
inductive TypeTree
  | basetype (name : VarType)
  | array (type : TypeTree)

/-- `nameslist : TK_ID | TK_ID ',' nameslist` -/
inductive NamesList
  | one (id : String)
  | more (id : String) (names : NamesList)

/-- `defvar : type nameslist ';'` -/
structure DefVarLine where
  type : TypeTree
  names : NamesList

/-- `defvars : defvar | defvar defvars` -/
inductive DefVars
  | one (line : DefVarLine)
  | more (line : DefVarLine) (rest : DefVars)

/-- Where declarations stand: at the head of a block, which may have none, or each as a definition of
its own, with functions (`none`) between them. -/
inductive Declarations
  | block (vars : Option DefVars)
  | definitions (l : List (Option DefVarLine))

end Grammar

section Actions

def baseTypeInit (type : VarType) : DeclType := ⟨type,0⟩

def TypeTree.action : TypeTree → DeclType
  | .basetype name => baseTypeInit name
  | .array type => { type.action with brackets := type.action.brackets+1 }

/-- A node of a `DefVarList`; its type is set when the line has been read. -/
structure DefVarNode where
  id : String
  type : Option DeclType
  deriving DecidableEq, Repr

def NamesList.action : NamesList → List DefVarNode
  | .one id => [⟨id,none⟩]
  | .more id names => ⟨id,none⟩::names.action

/-- The loop over `temp`. -/
def setTypes (type : DeclType) : List DefVarNode → List DefVarNode
  | [] => []
  | node::temp => { node with type := some type }::setTypes type temp

def DefVarLine.action (line : DefVarLine) : List DefVarNode :=
  setTypes line.type.action line.names.action

/-- `$$ = $1; $$->next = $2;` -/
def setNext (list next : List DefVarNode) : List DefVarNode := list.take 1 ++ next

def DefVars.action : DefVars → List DefVarNode
  | .one line => line.action
  | .more line rest => setNext line.action rest.action

/-- The lists of the block or of the definitions, one behind the other. -/
def Declarations.action : Declarations → List DefVarNode
  | .block vars => vars.elim [] DefVars.action
  | .definitions l => l.flatMap fun definition => definition.elim [] DefVarLine.action

end Actions

section Declared

def NamesList.ids : NamesList → List String
  | .one id => [id]
  | .more id names => id::names.ids

/-- What a line declares: each name with the type of the line. -/
def DefVarLine.declared (line : DefVarLine) : List DefVarNode :=
  line.names.ids.map fun id => ⟨id,some line.type.action⟩

def DefVars.lines : DefVars → List DefVarLine
  | .one line => [line]
  | .more line rest => line::rest.lines

def Declarations.lines : Declarations → List DefVarLine
  | .block vars => vars.elim [] DefVars.lines
  | .definitions l => l.reduceOption

def Declarations.declared (d : Declarations) : List DefVarNode := d.lines.flatMap DefVarLine.declared

@[simp] theorem NamesList.length_ids_pos (names : NamesList) : 0 < names.ids.length := by
  cases names with
  | one id => simp [NamesList.ids]
  | more id names => simp [NamesList.ids]

theorem DefVars.lines_ne_nil (vars : DefVars) : vars.lines ≠ [] := by
  cases vars with
  | one line => exact List.cons_ne_nil _ _
  | more line rest => exact List.cons_ne_nil _ _

/-- A line by itself is kept. -/
theorem DefVarLine.action_eq_declared (line : DefVarLine) : line.action = line.declared := by
  rw [DefVarLine.action,DefVarLine.declared]
  generalize line.type.action = type
  induction line.names with
  | one id => simp [NamesList.action,NamesList.ids,setTypes]
  | more id names ih => simp [NamesList.action,NamesList.ids,setTypes,ih]

theorem DefVarLine.length_declared (line : DefVarLine) :
    line.declared.length = line.names.ids.length := by
  simp [DefVarLine.declared]

/-- Of every line but the last, only the first name is kept. -/
theorem DefVars.action_eq (vars : DefVars) :
    vars.action = (vars.lines.dropLast.flatMap fun line => line.declared.take 1) ++
      (vars.lines.getLast vars.lines_ne_nil).declared := by
  induction vars with
  | one line => simp [DefVars.action,DefVars.lines,line.action_eq_declared]
  | more line rest ih =>
    simp only [DefVars.action,DefVars.lines,setNext,line.action_eq_declared,ih]
    rw [List.dropLast_cons_of_ne_nil rest.lines_ne_nil,List.getLast_cons rest.lines_ne_nil,
      List.flatMap_cons,List.append_assoc]

theorem DefVars.length_action_le (vars : DefVars) :
    vars.action.length ≤ (vars.lines.flatMap DefVarLine.declared).length := by
  induction vars with
  | one line => simp [DefVars.action,DefVars.lines,line.action_eq_declared]
  | more line rest ih =>
    simp only [DefVars.action,DefVars.lines,setNext,line.action_eq_declared,List.flatMap_cons,
      List.length_append,List.length_take]
    omega

theorem DefVars.action_eq_iff (vars : DefVars) :
    vars.action = vars.lines.flatMap DefVarLine.declared ↔
      ∀ line ∈ vars.lines.dropLast, line.names.ids.length = 1 := by
  induction vars with
  | one line => simp [DefVars.action,DefVars.lines,line.action_eq_declared]
  | more line rest ih =>
    rw [DefVars.lines,List.dropLast_cons_of_ne_nil rest.lines_ne_nil,List.forall_mem_cons,← ih,
      List.flatMap_cons,DefVars.action,setNext,line.action_eq_declared]
    constructor
    · intro h
      have hlen := congrArg List.length h
      have hle := rest.length_action_le
      have hpos := line.names.length_ids_pos
      rw [List.length_append,List.length_append,List.length_take,line.length_declared] at hlen
      have hone : line.names.ids.length = 1 := by omega
      refine ⟨hone,?_⟩
      rw [List.take_of_length_le (by rw [line.length_declared,hone])] at h
      exact List.append_cancel_left h
    · rintro ⟨hone,hrest⟩
      rw [List.take_of_length_le (by rw [line.length_declared,hone]),hrest]

theorem definitions_action (l : List (Option DefVarLine)) :
    (Declarations.definitions l).action = (Declarations.definitions l).declared := by
  simp only [Declarations.action,Declarations.declared,Declarations.lines]
  induction l with
  | nil => rfl
  | cons definition l ih =>
    cases definition with
    | none => simpa [List.reduceOption_cons_of_none] using ih
    | some line => simp [ih,line.action_eq_declared,List.reduceOption_cons_of_some]

/-- Every line of a block that others follow declares a single name. -/
def Declarations.Single : Declarations → Prop
  | .block vars => ∀ line ∈ (vars.elim [] DefVars.lines).dropLast, line.names.ids.length = 1
  | .definitions _ => True

/-- The list holds what is declared, in the order of the source, exactly where in no block a line of
several names is followed by another line. -/
theorem action_eq_declared_iff (d : Declarations) : d.action = d.declared ↔ d.Single := by
  cases d with
  | block vars =>
    cases vars with
    | none => simp [Declarations.action,Declarations.declared,Declarations.lines,Declarations.Single]
    | some vars => exact vars.action_eq_iff
  | definitions l => exact iff_of_true (definitions_action l) trivial

/-- Of `int a, b; float c;` at the head of a block, `b` is lost. -/
theorem not_kept_two_lines : ¬ ∀ d : Declarations, d.action = d.declared := by
  intro hall
  have h := congrArg List.length (hall (.block (some (.more ⟨.basetype .VarInt,.more "a" (.one "b")⟩
    (.one ⟨.basetype .VarFloat,.one "c"⟩)))))
  cases h

end Declared
end PucRio.Monga
