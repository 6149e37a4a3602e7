/-!
# State words

A `TS_STATE_TYPE` is the address of a `TS_TRANS` entry, or 0, with `rDO` in
the lowest bit. The first byte of an entry's name holds the category bit and
`C_THR`; the code generator takes both from the macro that defines the state.
-/

namespace TinyState

/-- `C_INI`, `C_ACT`, `C_FIN`, `C_ZOM`, `C_ERR`, `C_PUB`. -/
inductive Category
  | ini | act | fin | zom | err | pub
  deriving DecidableEq, Repr

/-- `TS_TRANS`: the category bit and `C_THR` of `name[0]`, and whether `func`
is set. `id` stands for the address of the entry. -/
structure TsTrans where
  id : Nat
  category : Category
  thr : Bool
  func : Bool
  deriving DecidableEq, Repr

/-- `C_TEST(x,C_ZOM)`. -/
def TsTrans.isZom (s : TsTrans) : Bool := s.category = .zom

/-- `C_TEST(x,C_INI)`. -/
def TsTrans.isIni (s : TsTrans) : Bool := s.category = .ini

/-- A value returned by a state function; `state = none` is the address 0. -/
structure StateWord where
  rDO : Bool
  state : Option TsTrans
  deriving DecidableEq, Repr

namespace StateWord

/-- `return 0`. -/
def stay : StateWord := ⟨false, none⟩

/-- `return s`. -/
def rest (s : TsTrans) : StateWord := ⟨false, some s⟩

/-- `return rDO|s`. -/
def go (s : TsTrans) : StateWord := ⟨true, some s⟩

end StateWord

/-- The entries `eventHandler` and `inherit` name. The getters of states are
virtual, so a class may replace each; the category follows from the name. -/
structure StateTable where
  INI_START : TsTrans
  ERR_START : TsTrans
  ZOM_TINYSTATE_LAST2 : TsTrans
  ZOM : TsTrans
  ini_category : INI_START.category = .ini
  err_category : ERR_START.category = .err
  last2_category : ZOM_TINYSTATE_LAST2.category = .zom
  zom_category : ZOM.category = .zom

/-- The entries of `tinyState_` itself. -/
def StateTable.tinyState : StateTable where
  INI_START := ⟨1, .ini, false, true⟩
  ERR_START := ⟨2, .err, false, true⟩
  ZOM_TINYSTATE_LAST2 := ⟨3, .zom, false, true⟩
  ZOM := ⟨4, .zom, false, true⟩
  ini_category := rfl
  err_category := rfl
  last2_category := rfl
  zom_category := rfl

/-- `sException::type`. -/
inductive ExType
  | stay
  | error
  deriving DecidableEq, Repr

/-- How the run of a state function ends: it returns, or it throws an
`sException`. -/
inductive Outcome
  | ret (w : StateWord)
  | throw (ex : ExType)
  deriving DecidableEq, Repr

/-- The state word the dispatcher goes on with (`catch` of `eventHandler`). -/
def Outcome.word (T : StateTable) : Outcome → StateWord
  | .ret w => w
  | .throw .stay => .stay
  | .throw .error => .go T.ERR_START

end TinyState
