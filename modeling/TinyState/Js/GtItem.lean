import TinyState.Js.PigPath
import TinyState.Lib.Assoc

/-!
# gtItem: the document with the writes

Writes for a `gtItem` are put into a copy of its cached document, each at its path, and the copy
becomes the cached document when the server has accepted it. Objects are held in a heap, so that
it can be told what is shared: only new objects are changed.

A leaf takes the type of the old one. Where the parent of the leaf is missing too, the old leaf
counts as an empty string.
-/

namespace TinyState.Js.GtItem

open PigPath (index)

-- ---------------------------------------------------------------------------
-- Values and objects
-- ---------------------------------------------------------------------------

/-- A value; objects are addresses. `prototype` is what the name `__proto__` gives. -/
inductive Val
  | undefined
  | null
  | bool (b : Bool)
  | number (x : JsNumber)
  | string (s : String)
  | ref (a : Nat)
  | prototype
  deriving DecidableEq, Repr

/-- An object of the heap with its own properties; those of an array do not count `length`. -/
inductive Cell
  | object (props : List (String × Val))
  | array (length : Nat) (props : List (String × Val))
  deriving DecidableEq, Repr

abbrev Heap := List Cell

namespace Val

def typeof : Val → String
  | undefined => "undefined"
  | null | ref _ | prototype => "object"
  | bool _ => "boolean"
  | number _ => "number"
  | string _ => "string"

def truthy : Val → Bool
  | undefined | null => false
  | bool b => b
  | number x => x ≠ .nan && x ≠ .zero
  | string s => s ≠ ""
  | ref _ | prototype => true

end Val

/-- Conversions that depend on how numbers are written and objects convert: `x + ""`, and the
length that a value gives to an array, where it does not throw. -/
structure Conversions where
  text : JsNumber → String
  length : Heap → Val → Option Nat

variable (conv : Conversions)

/-- A leaf in the place of `org`: `i_replace_data` with an empty path. -/
def convert (org data : Val) : Val :=
  if org.typeof = data.typeof then data
  else
    match org, data with
    | .string _, .bool b => .string (if b then "true" else "false")
    | .string _, .number x => .string (conv.text x)
    | .bool _, data => .bool data.truthy
    | .number _, .bool b => .number (if b then .real 1 else .zero)
    | .number _, .string s => .number (.ofString s)
    | _, data => data

namespace Cell

def props : Cell → List (String × Val)
  | object ps | array _ ps => ps

def isArray : Cell → Bool
  | object _ => false
  | array .. => true

/-- The own property `k`. -/
def own (c : Cell) (k : String) : Val :=
  if c.isArray ∧ k = "length" then .undefined else (c.props.lookup k).getD .undefined

/-- `c[k]` -/
def get (c : Cell) (k : String) : Val :=
  match c, c.props.lookup k with
  | array n _, v => if k = "length" then .number (.real n) else
      v.getD (if k = "__proto__" then .prototype else .undefined)
  | object _, v => v.getD (if k = "__proto__" then .prototype else .undefined)

/-- `c[k] = v`, nothing where it throws; `c` has no own property `__proto__`. -/
def set (h : Heap) (c : Cell) (k : String) (v : Val) : Option Cell :=
  if k = "__proto__" then some c
  else
    match c with
    | object ps => some (object (Assoc.put k v ps))
    | array n ps =>
      if k = "length" then
        (conv.length h v).map fun m => array m (ps.filter fun p => ∀ i ∈ index p.1, i < m)
      else some (array (max n ((index k).elim 0 (· + 1))) (Assoc.put k v ps))

/-- `copyHash`: a property `__proto__` does not become an own property of the copy, and the
length is what the items make it. -/
def copy (c : Cell) : Cell :=
  let ps := c.props.filter (·.1 ≠ "__proto__")
  if c.isArray then array (ps.foldl (fun n p => max n ((index p.1).elim 0 (· + 1))) 0) ps
  else object ps

end Cell

-- ---------------------------------------------------------------------------
-- Writes
-- ---------------------------------------------------------------------------

/-- An element of a path. -/
inductive PathElement
  | name (s : String)
  | number (text : String) (plain : text ≠ "length" ∧ text ≠ "__proto__")
  deriving DecidableEq, Repr

def PathElement.text : PathElement → String
  | name s | number s _ => s

/-- The new object for what is missing. -/
def PathElement.container : PathElement → Cell
  | name _ => .object []
  | number .. => .array 0 []

/-- `stdObject.copyHash(org)`. The copy of what `__proto__` gives gets lost, whatever it is. -/
def copyHash (h : Heap) : Val → Cell
  | .ref a => (h[a]?.map Cell.copy).getD (.object [])
  | _ => .object []

/-- `ret[top] = …`, and `ret` is returned. -/
def place (a : Nat) (k : String) : Option Val × Heap → Option Val × Heap
  | (none, h) => (none, h)
  | (some v, h) =>
    match (h[a]?).bind fun c => c.set conv h k v with
    | none => (none, h)
    | some c => (some (.ref a), h.set a c)

/-- `i_replace_data(path,data,org)`; there is no value where it throws. -/
def replaceData (data : Val) : List PathElement → Val → Heap → Option Val × Heap
  | [], org, h => (some (convert conv org data), h)
  | top :: path, org, h =>
    if org.typeof ≠ "object" then
      place conv h.length top.text
        (replaceData data path (.string "") (h ++ [top.container]))
    else
      place conv h.length top.text
        (replaceData data path ((copyHash h org).get top.text) (h ++ [copyHash h org]))

/-- An element of the `args` of a request. -/
structure Write where
  path : List PathElement
  data : Val
  deriving DecidableEq, Repr

/-- `i_filterHash` -/
def filterHash (path : List PathElement) : Bool :=
  match path with
  | .name s :: _ => s = "data" || s = "command"
  | _ => false

/-- `i_replace_data_top(path,data,org)` -/
def replaceDataTop (w : Write) (org : Val) (h : Heap) : Option Val × Heap :=
  if filterHash w.path then replaceData conv w.data w.path org h else (some org, h)

/-- The loops of `ACT_gtItem_WRITE` over the writes. -/
def merge : List Write → Val → Heap → Option Val × Heap
  | [], temp, h => (some temp, h)
  | w :: ws, temp, h =>
    match replaceDataTop conv w temp h with
    | (none, h) => (none, h)
    | (some temp, h) => merge ws temp h

-- ---------------------------------------------------------------------------
-- What is asked for
-- ---------------------------------------------------------------------------

/-- The own property `k` of a value. -/
def own (h : Heap) (v : Val) (k : String) : Val :=
  match v with
  | .ref a => (h[a]?.map (·.own k)).getD .undefined
  | _ => .undefined

/-- What is at a path. -/
def fetch (h : Heap) (v : Val) : List String → Val
  | [] => v
  | k :: ks => fetch h (own h v k) ks

def isArray (h : Heap) : Val → Bool
  | .ref a => (h[a]?.map Cell.isArray).getD false
  | _ => false

def names (path : List PathElement) : List String := path.map PathElement.text

/-- Neither path is a prefix of the other. -/
def Apart (p q : List String) : Prop := ¬ p <+: q ∧ ¬ q <+: p

/-- The data are at the path, in the type of the old leaf if there was one; what is apart from
the path is as it was; arrays on the way are arrays. -/
structure Put (w : Write) (h : Heap) (v : Val) (h' : Heap) (v' : Val) : Prop where
  leaf : fetch h' v' (names w.path) = convert conv (fetch h v (names w.path)) w.data
  frame : ∀ q, Apart (names w.path) q → fetch h' v' q = fetch h v q
  arrays : ∀ q, q <+: names w.path → q ≠ names w.path → isArray h (fetch h v q) = true →
    isArray h' (fetch h' v' q) = true

/-- A name that is a member of every object, or the length of an array. -/
def Plain (h : Heap) (v : Val) (k : String) : Prop :=
  k ≠ "__proto__" ∧ own h v "__proto__" = .undefined ∧ ¬ (isArray h v = true ∧ k = "length")

instance (h : Heap) (v : Val) (k : String) : Decidable (Plain h v k) :=
  inferInstanceAs (Decidable (_ ∧ _ ∧ _))

/-- Plain names on a path. -/
def PlainPath (h : Heap) (v : Val) (p : List String) : Prop :=
  ∀ q k, q ++ [k] <+: p → Plain h (fetch h v q) k

/-- The names on the path are plain ones; and the parent of the leaf is an object, an array or
null, or the data are neither a number nor a boolean. -/
structure Writable (w : Write) (h : Heap) (v : Val) : Prop where
  plain : PlainPath h v (names w.path)
  parent : w.path = [] ∨ (fetch h v (names w.path).dropLast).typeof = "object" ∨
    (w.data.typeof ≠ "number" ∧ w.data.typeof ≠ "boolean")

-- ---------------------------------------------------------------------------
-- Documents
-- ---------------------------------------------------------------------------

/-- A value that can be in a document whose objects are below `n`. -/
def Good (n : Nat) (v : Val) : Prop :=
  v ≠ .undefined ∧ v ≠ .prototype ∧ ∀ a, v = .ref a → a < n

/-- All properties in the heap satisfy `P`. -/
def All (P : Val → Prop) (h : Heap) : Prop := ∀ c ∈ h, ∀ p ∈ c.props, P p.2

/-- A heap that refers to nothing outside. -/
def Closed (h : Heap) : Prop := All (Good h.length) h

variable {conv} {h h' g : Heap} {v v' data org : Val} {c c' : Cell} {k k' : String} {n a : Nat}
  {P : Val → Prop} {path : List PathElement} {top : PathElement} {ks : List String} {w : Write}

theorem Good.mono (hv : Good n v) (hn : n ≤ a) : Good a v :=
  ⟨hv.1, hv.2.1, fun b hb => lt_of_lt_of_le (hv.2.2 b hb) hn⟩

theorem own_prop (c : Cell) (k : String) : c.own k = .undefined ∨ ∃ p ∈ c.props, c.own k = p.2 := by
  unfold Cell.own
  split
  · exact .inl rfl
  · cases hl : c.props.lookup k with
    | none => exact .inl rfl
    | some v => exact .inr ⟨(k, v), Assoc.mem_of_lookup hl, rfl⟩

theorem own_all (hP : All P h) (v : Val) (k : String) : own h v k = .undefined ∨ P (own h v k) := by
  cases v with
  | ref a =>
    cases hc : h[a]? with
    | none => exact .inl (by simp [own, hc])
    | some c =>
      rcases own_prop c k with he | ⟨p, hp, he⟩
      · exact .inl (by simp [own, hc, he])
      · refine .inr ?_
        simp only [own, hc, Option.map_some, Option.getD_some, he]
        exact hP c (List.mem_of_getElem? hc) p hp
  | _ => exact .inl rfl

@[simp] theorem fetch_undefined (h : Heap) (ks : List String) :
    fetch h .undefined ks = .undefined := by
  induction ks with
  | nil => rfl
  | cons k ks ih => exact ih

/-- A document reads the same in a heap with more objects. -/
theorem own_grow (hp : h <+: g) (hv : v = .undefined ∨ Good h.length v) (k : String) :
    own g v k = own h v k := by
  cases v with
  | ref a =>
    have ha : a < h.length := hv.elim nofun fun hv => hv.2.2 a rfl
    obtain ⟨more, rfl⟩ := hp
    simp [own, List.getElem?_append_left ha]
  | _ => rfl

theorem fetch_grow (hc : Closed h) (hp : h <+: g) (hv : v = .undefined ∨ Good h.length v)
    (ks : List String) : fetch g v ks = fetch h v ks := by
  induction ks generalizing v with
  | nil => rfl
  | cons k ks ih =>
    rw [fetch, fetch, own_grow hp hv]
    exact ih (own_all hc v k)

theorem fetch_good (hc : Closed h) (hv : v = .undefined ∨ Good h.length v) (ks : List String) :
    fetch h v ks = .undefined ∨ Good h.length (fetch h v ks) := by
  induction ks generalizing v with
  | nil => exact hv
  | cons k ks ih => exact ih (own_all hc v k)

theorem isArray_grow (hp : h <+: g) (hv : v = .undefined ∨ Good h.length v) :
    isArray g v = isArray h v := by
  cases v with
  | ref a =>
    have ha : a < h.length := hv.elim nofun fun hv => hv.2.2 a rfl
    obtain ⟨more, rfl⟩ := hp
    simp [isArray, List.getElem?_append_left ha]
  | _ => rfl

theorem fetch_ne (hr : All (· ≠ .ref a) g) (hv : v ≠ .ref a) (ks : List String) :
    fetch g v ks ≠ .ref a := by
  induction ks generalizing v with
  | nil => exact hv
  | cons k ks ih =>
    refine ih ?_
    rcases own_all hr v k with he | he
    · rw [he]
      exact nofun
    · exact he

/-- An object that nothing refers to can be changed. -/
theorem fetch_set (hr : All (· ≠ .ref a) g) (hv : v ≠ .ref a) (c : Cell) (ks : List String) :
    fetch (g.set a c) v ks = fetch g v ks := by
  induction ks generalizing v with
  | nil => rfl
  | cons k ks ih =>
    have hown : own (g.set a c) v k = own g v k := by
      cases v with
      | ref b =>
        have hb : a ≠ b := fun he => hv (he ▸ rfl)
        simp [own, List.getElem?_set_ne hb]
      | _ => rfl
    rw [fetch, fetch, hown]
    refine ih ?_
    rcases own_all hr v k with he | he
    · rw [he]
      exact nofun
    · exact he

-- ---------------------------------------------------------------------------
-- Only new objects are changed
-- ---------------------------------------------------------------------------

theorem prefix_set (hp : h <+: g) (ha : h.length ≤ a) (c : Cell) : h <+: g.set a c := by
  obtain ⟨more, rfl⟩ := hp
  rw [List.set_append, if_neg (Nat.not_lt.mpr ha)]
  exact List.prefix_append _ _

/-- The object that stands for `org` in the copy, before the property is set. -/
def base (h : Heap) (org : Val) (top : PathElement) : Cell :=
  if org.typeof ≠ "object" then top.container else copyHash h org

/-- What stands for the property of `org`. -/
def child (h : Heap) (org : Val) (top : PathElement) : Val :=
  if org.typeof ≠ "object" then .string "" else (copyHash h org).get top.text

theorem replaceData_cons : replaceData conv data (top :: path) org h =
    place conv h.length top.text
      (replaceData conv data path (child h org top) (h ++ [base h org top])) := by
  rw [replaceData, child, base]
  split
  · rfl
  · rfl

variable {r : Option Val × Heap}

theorem place_grows (hp : h <+: r.2) (ha : h.length ≤ a) : h <+: (place conv a k r).2 := by
  obtain ⟨_ | v, g⟩ := r
  · exact hp
  · simp only [place]
    split
    · exact hp
    · exact prefix_set hp ha _

@[simp] theorem place_length : (place conv a k r).2.length = r.2.length := by
  obtain ⟨_ | v, g⟩ := r
  · rfl
  · simp only [place]
    split
    · rfl
    · exact List.length_set

/-- The objects that were there are not changed. -/
theorem replaceData_grows (conv : Conversions) (data : Val) (path : List PathElement) (org : Val)
    (h : Heap) : h <+: (replaceData conv data path org h).2 := by
  induction path generalizing org h with
  | nil => exact List.prefix_refl h
  | cons top path ih =>
    rw [replaceData_cons]
    exact place_grows ((List.prefix_append h _).trans (ih _ _)) (Nat.le_refl _)

theorem mem_props_set {p : String × Val} (hs : c.set conv h k v = some c') (hp : p ∈ c'.props) :
    p.2 = v ∨ p ∈ c.props := by
  unfold Cell.set at hs
  split at hs
  · cases hs
    exact .inr hp
  · split at hs
    · cases hs
      exact (Assoc.mem_put hp).imp_left fun h => congrArg Prod.snd h
    · split at hs
      · obtain ⟨m, -, rfl⟩ := Option.map_eq_some_iff.mp hs
        exact .inr (List.mem_filter.mp hp).1
      · cases hs
        exact (Assoc.mem_put hp).imp_left fun h => congrArg Prod.snd h

theorem mem_props_base {p : String × Val} (hp : p ∈ (base h org top).props) :
    ∃ c ∈ h, p ∈ c.props := by
  unfold base at hp
  split at hp
  · cases top <;> cases hp
  · unfold copyHash at hp
    split at hp
    · rename_i b _
      cases hc : h[b]? with
      | none =>
        rw [hc] at hp
        cases hp
      | some c =>
        refine ⟨c, List.mem_of_getElem? hc, ?_⟩
        simp only [hc, Option.map_some, Option.getD_some, Cell.copy] at hp
        split at hp
        · exact (List.mem_filter.mp hp).1
        · exact (List.mem_filter.mp hp).1
    · cases hp

theorem All.base (hP : All P h) (org : Val) (top : PathElement) :
    All P (h ++ [GtItem.base h org top]) := by
  intro c hc p hp
  rcases List.mem_append.mp hc with hc | hc
  · exact hP c hc p hp
  · rw [List.mem_singleton.mp hc] at hp
    obtain ⟨c, hc, hp⟩ := mem_props_base hp
    exact hP c hc p hp

theorem All.place (hP : All P r.2) (hv : ∀ v, r.1 = some v → P v) (ha : P (.ref a)) :
    All P (GtItem.place conv a k r).2 ∧ ∀ v, (GtItem.place conv a k r).1 = some v → P v := by
  obtain ⟨_ | v, g⟩ := r
  · exact ⟨hP, nofun⟩
  · simp only [GtItem.place]
    split
    · exact ⟨hP, nofun⟩
    · rename_i c' hc'
      obtain ⟨c, hc, hs⟩ := Option.bind_eq_some_iff.mp hc'
      refine ⟨fun d hd p hp => ?_, fun v hv => Option.some.inj hv ▸ ha⟩
      rcases List.mem_or_eq_of_mem_set hd with hd | rfl
      · exact hP d hd p hp
      · rcases mem_props_set hs hp with hp | hp
        · exact hp ▸ hv v rfl
        · exact hP c (List.mem_of_getElem? hc) p hp

/-- What holds of the values in the heap, of the data and of the new objects holds of the values
in the new heap. -/
theorem All.replaceData (hP : All P h) (hdata : ∀ org, P (convert conv org data))
    (hnew : ∀ a, h.length ≤ a → a < (GtItem.replaceData conv data path org h).2.length →
      P (.ref a)) :
    All P (GtItem.replaceData conv data path org h).2 ∧
      ∀ v, (GtItem.replaceData conv data path org h).1 = some v → P v := by
  induction path generalizing org h with
  | nil => exact ⟨hP, fun v hv => Option.some.inj hv ▸ hdata org⟩
  | cons top path ih =>
    rw [replaceData_cons] at hnew ⊢
    rw [place_length] at hnew
    have hlen := (replaceData_grows conv data path (child h org top)
      (h ++ [GtItem.base h org top])).length_le
    rw [List.length_append, List.length_singleton] at hlen
    obtain ⟨hall, hval⟩ := ih (hP.base org top) fun a ha hlt =>
      hnew a (Nat.le_of_succ_le (by simpa using ha)) hlt
    exact hall.place hval (hnew _ (Nat.le_refl _) hlen)

theorem convert_cases (conv : Conversions) (org data : Val) :
    convert conv org data = data ∨ ∀ n, Good n (convert conv org data) := by
  unfold convert
  split
  · exact .inl rfl
  · split
    · exact .inr fun _ => ⟨nofun, nofun, nofun⟩
    · exact .inr fun _ => ⟨nofun, nofun, nofun⟩
    · exact .inr fun _ => ⟨nofun, nofun, nofun⟩
    · exact .inr fun _ => ⟨nofun, nofun, nofun⟩
    · exact .inr fun _ => ⟨nofun, nofun, nofun⟩
    · exact .inl rfl

theorem convert_good (hd : Good n data) (org : Val) : Good n (convert conv org data) := by
  rcases convert_cases conv org data with h | h
  · rw [h]
    exact hd
  · exact h n

/-- The new document refers to nothing outside. -/
theorem Closed.replaceData (conv : Conversions) (path : List PathElement) (org : Val)
    (hc : Closed h) (hd : Good h.length data) :
    Closed (GtItem.replaceData conv data path org h).2 ∧
      ∀ v, (GtItem.replaceData conv data path org h).1 = some v →
        Good (GtItem.replaceData conv data path org h).2.length v := by
  have hlen := (replaceData_grows conv data path org h).length_le
  have hall : All (Good (GtItem.replaceData conv data path org h).2.length) h :=
    fun c hm p hp => (hc c hm p hp).mono hlen
  exact hall.replaceData (convert_good (hd.mono hlen))
    fun a _ ha => ⟨nofun, nofun, fun b hb => Val.ref.inj hb ▸ ha⟩

/-- Nothing refers to an object before it is returned. -/
theorem unshared (conv : Conversions) (path : List PathElement) (org : Val) (top : PathElement)
    (hc : Closed h) (hd : Good h.length data) :
    All (· ≠ .ref h.length)
        (GtItem.replaceData conv data path (child h org top) (h ++ [base h org top])).2 ∧
      ∀ v, (GtItem.replaceData conv data path (child h org top) (h ++ [base h org top])).1 =
        some v → v ≠ .ref h.length := by
  have hne : ∀ v, Good h.length v → v ≠ .ref h.length :=
    fun v hv he => Nat.lt_irrefl _ (hv.2.2 _ he)
  have hall : All (· ≠ .ref h.length) h := fun c hm p hp => hne _ (hc c hm p hp)
  refine (hall.base org top).replaceData (fun org => hne _ (convert_good hd org)) ?_
  intro a ha _ he
  cases he
  rw [List.length_append, List.length_singleton] at ha
  exact Nat.not_succ_le_self _ ha

-- ---------------------------------------------------------------------------
-- One element of a path
-- ---------------------------------------------------------------------------

/-- `ret[top] = …` with a name that is no property of `ret`. -/
def Lost (h : Heap) (v : Val) (k : String) : Prop :=
  k = "__proto__" ∨ (isArray h v = true ∧ k = "length")

theorem own_set (hs : c.set conv h k v = some c') (hp : k ≠ "__proto__")
    (hl : ¬ (c.isArray = true ∧ k = "length")) (k' : String) :
    c'.own k' = if k' = k then v else c.own k' := by
  unfold Cell.set at hs
  rw [if_neg hp] at hs
  cases c with
  | object ps =>
    cases hs
    simp only [Cell.own, Cell.isArray, Cell.props, Assoc.lookup_put, Bool.false_eq_true,
      false_and, if_false]
    by_cases hk : k' = k
    · simp [hk]
    · simp [hk]
  | array n ps =>
    have hlen : k ≠ "length" := fun h => hl ⟨rfl, h⟩
    simp only [hlen, if_false] at hs
    cases hs
    simp only [Cell.own, Cell.isArray, Cell.props, Assoc.lookup_put, true_and]
    by_cases hk : k' = k
    · subst hk
      simp [hlen]
    · simp [hk]

theorem isArray_set (hs : c.set conv h k v = some c') : c'.isArray = c.isArray := by
  unfold Cell.set at hs
  split at hs
  · cases hs
    rfl
  · split at hs
    · cases hs
      rfl
    · split at hs
      · obtain ⟨m, -, rfl⟩ := Option.map_eq_some_iff.mp hs
        rfl
      · cases hs
        rfl

theorem set_isSome (conv : Conversions) (h : Heap) (v : Val) (hp : k ≠ "__proto__")
    (hl : ¬ (c.isArray = true ∧ k = "length")) :
    (c.set conv h k v).isSome := by
  unfold Cell.set
  rw [if_neg hp]
  cases c with
  | object ps => rfl
  | array n ps =>
    have hlen : k ≠ "length" := fun h => hl ⟨rfl, h⟩
    simp [hlen]

theorem isArray_base (hv : org = .undefined ∨ Good n org) :
    (base h org top).isArray = true ↔
      isArray h org = true ∨ (org.typeof ≠ "object" ∧ top.container.isArray = true) := by
  unfold base
  cases org with
  | ref a =>
    cases hc : h[a]? with
    | none => simp [Val.typeof, copyHash, isArray, hc, Cell.isArray]
    | some c => cases c <;> simp [Val.typeof, copyHash, isArray, hc, Cell.isArray, Cell.copy]
  | prototype => exact absurd rfl (hv.resolve_left nofun).2.1
  | null => simp [Val.typeof, copyHash, isArray, Cell.isArray]
  | undefined | bool | number | string => simp [Val.typeof, isArray]

/-- A new array is not made for a name that arrays lose. -/
theorem lost_base (h : Heap) (top : PathElement) (hv : org = .undefined ∨ Good n org) :
    ((base h org top).isArray = true ∧ top.text = "length") ↔
      (isArray h org = true ∧ top.text = "length") := by
  rw [isArray_base hv]
  constructor
  · rintro ⟨ha | ⟨-, ha⟩, hl⟩
    · exact ⟨ha, hl⟩
    · cases top with
      | name s => cases ha
      | number s hs => exact absurd hl hs.1
  · rintro ⟨ha, hl⟩
    exact ⟨.inl ha, hl⟩

theorem own_copy (c : Cell) (k : String) :
    c.copy.own k = if k = "__proto__" then .undefined else c.own k := by
  have hl : (c.props.filter (·.1 ≠ "__proto__")).lookup k =
      if k = "__proto__" then none else c.props.lookup k := by
    have := Assoc.lookup_filter (fun s => decide (s ≠ "__proto__")) k c.props
    simpa using this
  have harr : c.copy.isArray = c.isArray := by cases c <;> rfl
  have hprops : c.copy.props = c.props.filter (·.1 ≠ "__proto__") := by cases c <;> rfl
  unfold Cell.own
  rw [harr, hprops, hl]
  by_cases hk : k = "__proto__"
  · simp [hk]
  · simp [hk]

theorem own_base (h : Heap) (org : Val) (top : PathElement) (k : String) :
    (base h org top).own k = if k = "__proto__" then .undefined else own h org k := by
  have hcont : top.container.own k = .undefined := by
    unfold Cell.own
    split
    · rfl
    · cases top <;> rfl
  unfold base
  cases org with
  | ref a =>
    cases hc : h[a]? with
    | none => simp [Val.typeof, copyHash, own, hc, Cell.own, Cell.isArray, Cell.props]
    | some c => simp [Val.typeof, copyHash, own, hc, own_copy]
  | null | prototype => simp [Val.typeof, copyHash, own, Cell.own, Cell.isArray, Cell.props]
  | _ => simp [Val.typeof, own, hcont]

/-- What stands for a property of an object, by a plain name, is the property. -/
theorem child_eq (hobj : org.typeof = "object") (hv : org = .undefined ∨ Good n org)
    (hp : Plain h org top.text) : child h org top = own h org top.text := by
  obtain ⟨hproto, -, hlen⟩ := hp
  have hbase := own_base h org top top.text
  rw [if_neg hproto, base, if_neg (not_not.mpr hobj)] at hbase
  have hlost : ¬ ((copyHash h org).isArray = true ∧ top.text = "length") := by
    have := (lost_base h top hv).not.mpr hlen
    rwa [base, if_neg (not_not.mpr hobj)] at this
  rw [child, if_neg (not_not.mpr hobj), ← hbase]
  unfold Cell.get Cell.own
  cases hc : copyHash h org with
  | object ps => simp [hproto, Cell.isArray, Cell.props]
  | array m ps =>
    have hl : top.text ≠ "length" := fun hl => hlost ⟨by rw [hc]; rfl, hl⟩
    simp [hproto, hl, Cell.props]

/-- A value that a path can come to. -/
abbrev Held (h : Heap) (v : Val) : Prop := v = .undefined ∨ Good h.length v

/-- What has been made of one element of a path: a new object with the property `v₁`. -/
structure Made (conv : Conversions) (h : Heap) (org : Val) (top : PathElement) (g : Heap) (v₁ : Val)
    (h' : Heap) (v' : Val) : Prop where
  set : ∃ c', (base h org top).set conv g top.text v₁ = some c' ∧ v' = .ref h.length ∧
    h' = g.set h.length c'
  there : h ++ [base h org top] <+: g
  unshared : All (· ≠ .ref h.length) g
  value : v₁ ≠ .ref h.length

theorem replaceData_some (hc : Closed h) (hd : Good h.length data)
    (hr : replaceData conv data (top :: path) org h = (some v', h')) :
    ∃ v₁ g, replaceData conv data path (child h org top) (h ++ [base h org top]) =
      (some v₁, g) ∧ Made conv h org top g v₁ h' v' := by
  rw [replaceData_cons] at hr
  have hpre := replaceData_grows conv data path (child h org top) (h ++ [base h org top])
  obtain ⟨hall, hval⟩ := unshared conv path org top hc hd
  generalize replaceData conv data path (child h org top) (h ++ [base h org top]) = r at *
  obtain ⟨_ | v₁, g⟩ := r
  · cases hr
  · refine ⟨v₁, g, rfl, ?_, hpre, hall, hval v₁ rfl⟩
    have hcell : g[h.length]? = some (base h org top) := by
      obtain ⟨more, rfl⟩ := hpre
      simp
    simp only [place, hcell, Option.bind_some] at hr
    split at hr
    · cases hr
    · rename_i c' hc'
      cases hr
      exact ⟨c', hc', rfl, rfl⟩

namespace Made

variable {v₁ : Val}

theorem length_lt (m : Made conv h org top g v₁ h' v') : h.length < g.length := by
  have := m.there.length_le
  rw [List.length_append, List.length_singleton] at this
  exact this

theorem own_eq (m : Made conv h org top g v₁ h' v') (hl : ¬ Lost h org top.text)
    (hv : Held h org) (k : String) :
    own h' v' k = if k = top.text then v₁ else if k = "__proto__" then .undefined
      else own h org k := by
  obtain ⟨c', hs, rfl, rfl⟩ := m.set
  have hlost := (lost_base h top hv).not.mpr fun h => hl (.inr h)
  simp only [own, List.getElem?_set_self m.length_lt, Option.map_some, Option.getD_some,
    own_set hs (fun h => hl (.inl h)) hlost, own_base]

/-- What is below a property of the new object. -/
theorem fetch_eq (m : Made conv h org top g v₁ h' v') (hl : ¬ Lost h org top.text)
    (hc : Closed h) (hv : Held h org) (k : String) (ks : List String) :
    fetch h' v' (k :: ks) = if k = top.text then fetch g v₁ ks
      else if k = "__proto__" then .undefined else fetch h org (k :: ks) := by
  rw [fetch, m.own_eq hl hv]
  obtain ⟨c', -, rfl, rfl⟩ := m.set
  split
  · exact fetch_set m.unshared m.value c' ks
  · split
    · exact fetch_undefined _ _
    · have hown := own_all hc org k
      have hne : own h org k ≠ .ref h.length := by
        rcases hown with he | he
        · rw [he]
          exact nofun
        · exact fun hr => Nat.lt_irrefl _ (he.2.2 _ hr)
      rw [fetch_set m.unshared hne]
      exact fetch_grow hc ((List.prefix_append _ _).trans m.there) hown ks

/-- What is below the property is an array as before. -/
theorem isArray_below (m : Made conv h org top g v₁ h' v') (ks : List String) :
    isArray h' (fetch g v₁ ks) = isArray g (fetch g v₁ ks) := by
  obtain ⟨c', -, -, rfl⟩ := m.set
  have hne := fetch_ne m.unshared m.value ks
  cases hf : fetch g v₁ ks with
  | ref b =>
    have hb : h.length ≠ b := fun he => hne (by rw [hf, he])
    simp [isArray, List.getElem?_set_ne hb]
  | _ => rfl

/-- A name that gets lost gives nothing. -/
theorem own_lost (m : Made conv h org top g v₁ h' v') (hl : Lost h org top.text)
    (hv : Held h org) : own h' v' top.text = .undefined := by
  obtain ⟨c', hs, rfl, rfl⟩ := m.set
  simp only [own, List.getElem?_set_self m.length_lt, Option.map_some, Option.getD_some]
  rcases hl with hl | hl
  · unfold Cell.set at hs
    rw [if_pos hl] at hs
    cases hs
    rw [own_base, if_pos hl]
  · obtain ⟨ha, hlen⟩ := (lost_base h top hv).mpr hl
    rw [Cell.own, if_pos ⟨(isArray_set hs).trans ha, hlen⟩]

theorem isArray_eq (m : Made conv h org top g v₁ h' v') (hv : Held h org)
    (ha : isArray h org = true) : isArray h' v' = true := by
  obtain ⟨c', hs, rfl, rfl⟩ := m.set
  simp only [isArray, List.getElem?_set_self m.length_lt, Option.map_some, Option.getD_some]
  exact (isArray_set hs).trans ((isArray_base hv).mpr (.inl ha))

end Made

theorem own_of_ne_object (hv : org.typeof ≠ "object") (k : String) : own h org k = .undefined := by
  cases org with
  | ref a => exact absurd rfl hv
  | _ => rfl

theorem isArray_of_ne_object (hv : org.typeof ≠ "object") : isArray h org = false := by
  cases org with
  | ref a => exact absurd rfl hv
  | _ => rfl

/-- What stands for a property leads to the same as the property. -/
theorem child_own (hv : Held h org) (hp : Plain h org top.text) (k : String) :
    own h (child h org top) k = own h (own h org top.text) k := by
  by_cases hobj : org.typeof = "object"
  · rw [child_eq hobj hv hp]
  · rw [child, if_pos hobj, own_of_ne_object hobj]
    rfl

theorem child_isArray (hv : Held h org) (hp : Plain h org top.text) :
    isArray h (child h org top) = isArray h (own h org top.text) := by
  by_cases hobj : org.typeof = "object"
  · rw [child_eq hobj hv hp]
  · rw [child, if_pos hobj, own_of_ne_object hobj]
    rfl

theorem child_held (hc : Closed h) (hv : Held h org) (hp : Plain h org top.text) :
    Held h (child h org top) := by
  by_cases hobj : org.typeof = "object"
  · rw [child_eq hobj hv hp]
    exact own_all hc org _
  · rw [child, if_pos hobj]
    exact .inr ⟨nofun, nofun, nofun⟩

theorem Closed.base (hc : Closed h) (org : Val) (top : PathElement) :
    Closed (h ++ [GtItem.base h org top]) := by
  have hall : All (Good (h ++ [GtItem.base h org top]).length) h :=
    fun c hm p hp => (hc c hm p hp).mono (by simp)
  exact hall.base org top

theorem Held.mono (hv : Held h v) (hp : h <+: g) : Held g v :=
  hv.imp_right fun hv => hv.mono hp.length_le

/-- The leaf that the code looks at. -/
def leafOrg (h : Heap) : Val → List String → Val
  | org, [] => org
  | org, k :: ks => leafOrg h (if org.typeof ≠ "object" then .string "" else own h org k) ks

theorem leafOrg_ne_object (hv : org.typeof ≠ "object") (hks : ks ≠ []) :
    leafOrg h org ks = .string "" := by
  induction ks generalizing org with
  | nil => exact absurd rfl hks
  | cons k ks ih =>
    rw [leafOrg, if_pos hv]
    by_cases hks : ks = []
    · rw [hks, leafOrg]
    · exact ih (by decide) hks

theorem leafOrg_grow (hp : h <+: g) (hc : Closed h) (hv : Held h v) :
    leafOrg g v ks = leafOrg h v ks := by
  induction ks generalizing v with
  | nil => rfl
  | cons k ks ih =>
    rw [leafOrg, leafOrg, own_grow hp hv]
    refine ih ?_
    split
    · exact .inr ⟨nofun, nofun, nofun⟩
    · exact own_all hc v k

/-- It is the old leaf where its parent is an object, and else an empty string. -/
theorem leafOrg_eq (hks : ks ≠ []) : leafOrg h org ks =
    if (fetch h org ks.dropLast).typeof = "object" then fetch h org ks else .string "" := by
  induction ks generalizing org with
  | nil => exact absurd rfl hks
  | cons k ks ih =>
    rw [leafOrg]
    by_cases hobj : org.typeof = "object"
    · rw [if_neg (not_not.mpr hobj)]
      cases ks with
      | nil => simp [leafOrg, fetch, hobj]
      | cons k' ks => exact ih (List.cons_ne_nil _ _)
    · rw [if_pos hobj]
      cases ks with
      | nil => simp [leafOrg, fetch, hobj]
      | cons k' ks =>
        rw [leafOrg_ne_object (by decide) (List.cons_ne_nil _ _), List.dropLast_cons_cons, fetch,
          own_of_ne_object hobj, fetch_undefined]
        rfl

-- ---------------------------------------------------------------------------
-- Paths
-- ---------------------------------------------------------------------------

theorem apart_cons {q : List String} : Apart (k :: ks) (k' :: q) ↔ k ≠ k' ∨ Apart ks q := by
  unfold Apart
  rw [List.cons_prefix_cons, List.cons_prefix_cons, eq_comm (a := k')]
  tauto

theorem not_apart_nil {q : List String} : ¬ Apart q [] := fun h => h.2 (List.nil_prefix)

theorem plainPath_cons : PlainPath h v (k :: ks) ↔
    Plain h v k ∧ PlainPath h (own h v k) ks := by
  constructor
  · intro hp
    refine ⟨hp [] k (by simp), fun q j hq => hp (k :: q) j ?_⟩
    rw [List.cons_append, List.cons_prefix_cons]
    exact ⟨rfl, hq⟩
  · rintro ⟨hk, hks⟩ q j hq
    cases q with
    | nil =>
      rw [List.nil_append, List.cons_prefix_cons] at hq
      rw [hq.1]
      exact hk
    | cons i q =>
      rw [List.cons_append, List.cons_prefix_cons] at hq
      obtain ⟨rfl, hq⟩ := hq
      exact hks q j hq

theorem plain_congr {x y : Val} (hown : ∀ k, own g x k = own h y k)
    (ha : isArray g x = isArray h y) : Plain g x k ↔ Plain h y k := by
  simp only [Plain, hown, ha]

theorem plainPath_congr {x y : Val} (hown : ∀ k, own g x k = own h y k)
    (ha : isArray g x = isArray h y) (hc : Closed h) (hpre : h <+: g) :
    PlainPath g x ks ↔ PlainPath h y ks := by
  cases ks with
  | nil => exact ⟨fun _ q k hq => by simp at hq, fun _ q k hq => by simp at hq⟩
  | cons k ks =>
    rw [plainPath_cons, plainPath_cons, plain_congr hown ha, hown]
    have hv := own_all hc y k
    refine and_congr Iff.rfl ⟨fun hp q j hq => ?_, fun hp q j hq => ?_⟩
    · have h1 := hp q j hq
      rw [fetch_grow hc hpre hv] at h1
      refine (plain_congr (fun k => ?_) ?_).mp h1
      · exact own_grow hpre (fetch_good hc hv q) k
      · exact isArray_grow hpre (fetch_good hc hv q)
    · have h1 := hp q j hq
      rw [fetch_grow hc hpre hv]
      refine (plain_congr (fun k => ?_) ?_).mpr h1
      · exact own_grow hpre (fetch_good hc hv q) k
      · exact isArray_grow hpre (fetch_good hc hv q)

theorem prefix_base (h : Heap) (org : Val) (top : PathElement) : h <+: h ++ [base h org top] :=
  List.prefix_append _ _

theorem fetch_child (hc : Closed h) (hv : Held h org) (hp : Plain h org top.text) (hks : ks ≠ []) :
    fetch (h ++ [base h org top]) (child h org top) ks = fetch h org (top.text :: ks) := by
  rw [fetch_grow hc (prefix_base h org top) (child_held hc hv hp)]
  cases ks with
  | nil => exact absurd rfl hks
  | cons k ks => rw [fetch, child_own hv hp, fetch, fetch]

theorem plainPath_child (hc : Closed h) (hv : Held h org) (hp : Plain h org top.text) :
    PlainPath (h ++ [base h org top]) (child h org top) ks ↔
      PlainPath h (own h org top.text) ks := by
  refine plainPath_congr (fun k => ?_) ?_ hc (prefix_base h org top)
  · rw [own_grow (prefix_base h org top) (child_held hc hv hp), child_own hv hp]
  · rw [isArray_grow (prefix_base h org top) (child_held hc hv hp), child_isArray hv hp]

theorem Plain.not_lost (hp : Plain h v k) : ¬ Lost h v k :=
  fun hl => hl.elim hp.1 hp.2.2

/-- With plain names on the path nothing throws. -/
theorem replaceData_isSome (conv : Conversions) (data : Val) (hc : Closed h) (hv : Held h org)
    (hp : PlainPath h org (names path)) :
    ∃ v' h', replaceData conv data path org h = (some v', h') := by
  induction path generalizing org h with
  | nil => exact ⟨_, _, rfl⟩
  | cons top path ih =>
    obtain ⟨htop, hrest⟩ := plainPath_cons.mp hp
    obtain ⟨v₁, g, hr⟩ := ih (hc.base org top) ((child_held hc hv htop).mono (prefix_base ..))
      ((plainPath_child hc hv htop).mpr hrest)
    have hpre := replaceData_grows conv data path (child h org top) (h ++ [base h org top])
    rw [hr] at hpre
    have hcell : g[h.length]? = some (base h org top) := by
      obtain ⟨more, rfl⟩ := hpre
      simp
    have hlost := (lost_base h top hv).not.mpr htop.2.2
    obtain ⟨c', hs⟩ := Option.isSome_iff_exists.mp
      (set_isSome conv g v₁ htop.1 hlost)
    refine ⟨.ref h.length, g.set h.length c', ?_⟩
    rw [replaceData_cons, hr]
    simp only [place, hcell, Option.bind_some, hs]

theorem fetch_leaf (hc : Closed h) (hv : Held h org) (hd : Good h.length data)
    (hp : PlainPath h org (names path))
    (hr : replaceData conv data path org h = (some v', h')) :
    fetch h' v' (names path) = convert conv (leafOrg h org (names path)) data := by
  induction path generalizing org h v' h' with
  | nil =>
    cases hr
    rfl
  | cons top path ih =>
    obtain ⟨htop, hrest⟩ := plainPath_cons.mp hp
    obtain ⟨v₁, g, hr, m⟩ := replaceData_some hc hd hr
    have hleaf := ih (hc.base org top) ((child_held hc hv htop).mono (prefix_base ..))
      (hd.mono (by simp)) ((plainPath_child hc hv htop).mpr hrest) hr
    rw [names, List.map_cons, m.fetch_eq htop.not_lost hc hv, if_pos rfl]
    refine hleaf.trans (congrArg (convert conv · data) ?_)
    rw [leafOrg_grow (prefix_base h org top) hc (child_held hc hv htop), leafOrg]
    by_cases hobj : org.typeof = "object"
    · rw [child_eq hobj hv htop, if_neg (not_not.mpr hobj)]
      rfl
    · rw [child, if_pos hobj, if_pos hobj]
      rfl

theorem fetch_apart (hc : Closed h) (hv : Held h org) (hd : Good h.length data)
    (hp : PlainPath h org (names path))
    (hr : replaceData conv data path org h = (some v', h')) {q : List String}
    (hq : Apart (names path) q) : fetch h' v' q = fetch h org q := by
  induction path generalizing org h v' h' q with
  | nil => exact absurd List.nil_prefix hq.1
  | cons top path ih =>
    obtain ⟨htop, hrest⟩ := plainPath_cons.mp hp
    obtain ⟨v₁, g, hr, m⟩ := replaceData_some hc hd hr
    cases q with
    | nil => exact absurd hq not_apart_nil
    | cons k q =>
      rw [m.fetch_eq htop.not_lost hc hv]
      by_cases hk : k = top.text
      · subst hk
        have hq := (apart_cons.mp hq).resolve_left (fun h => h rfl)
        have hne : q ≠ [] := fun he => not_apart_nil (he ▸ hq)
        rw [if_pos rfl, ih (hc.base org top) ((child_held hc hv htop).mono (prefix_base ..))
          (hd.mono (by simp)) ((plainPath_child hc hv htop).mpr hrest) hr hq]
        exact fetch_child hc hv htop hne
      · rw [if_neg hk]
        split
        · rename_i hproto
          rw [hproto, fetch, htop.2.1, fetch_undefined]
        · rfl

theorem isArray_way (hc : Closed h) (hv : Held h org) (hd : Good h.length data)
    (hp : PlainPath h org (names path))
    (hr : replaceData conv data path org h = (some v', h')) {q : List String}
    (hq : q <+: names path) (hne : q ≠ names path) (ha : isArray h (fetch h org q) = true) :
    isArray h' (fetch h' v' q) = true := by
  induction path generalizing org h v' h' q with
  | nil => exact absurd (List.prefix_nil.mp hq) hne
  | cons top path ih =>
    obtain ⟨htop, hrest⟩ := plainPath_cons.mp hp
    obtain ⟨v₁, g, hr, m⟩ := replaceData_some hc hd hr
    cases q with
    | nil => exact m.isArray_eq hv ha
    | cons k q =>
      obtain ⟨rfl, hrestq⟩ := List.cons_prefix_cons.mp hq
      rw [m.fetch_eq htop.not_lost hc hv, if_pos rfl, m.isArray_below]
      refine ih (hc.base org top) ((child_held hc hv htop).mono (prefix_base ..))
        (hd.mono (by simp)) ((plainPath_child hc hv htop).mpr hrest) hr hrestq
        (fun he => hne (congrArg (top.text :: ·) he)) ?_
      by_cases hq : q = []
      · rw [hq, fetch, isArray_grow (prefix_base ..) (child_held hc hv htop),
          child_isArray hv htop]
        rwa [hq] at ha
      · rw [fetch_child hc hv htop hq, isArray_grow (prefix_base ..) (fetch_good hc hv _)]
        exact ha

/-- A leaf that can be read, and nothing else changed: then the names are plain. -/
theorem plainPath_of_fetch (hc : Closed h) (hv : Held h org) (hd : Good h.length data)
    (hr : replaceData conv data path org h = (some v', h'))
    (hleaf : fetch h' v' (names path) ≠ .undefined)
    (hframe : ∀ q, Apart (names path) q → fetch h' v' q = fetch h org q) :
    PlainPath h org (names path) := by
  induction path generalizing org h v' h' with
  | nil => exact fun q k hq => by simp [names] at hq
  | cons top path ih =>
    obtain ⟨v₁, g, hr, m⟩ := replaceData_some hc hd hr
    have hnot : ¬ Lost h org top.text := by
      intro hl
      rw [names, List.map_cons, fetch, m.own_lost hl hv, fetch_undefined] at hleaf
      exact hleaf rfl
    have hproto : own h org "__proto__" = .undefined := by
      have hne : top.text ≠ "__proto__" := fun h => hnot (.inl h)
      have hq := hframe ["__proto__"] (apart_cons.mpr (.inl hne))
      rw [m.fetch_eq hnot hc hv, if_neg hne.symm, if_pos rfl] at hq
      exact hq.symm
    have htop : Plain h org top.text :=
      ⟨fun h => hnot (.inl h), hproto, fun h => hnot (.inr h)⟩
    refine plainPath_cons.mpr ⟨htop, (plainPath_child hc hv htop).mp ?_⟩
    refine ih (hc.base org top) ((child_held hc hv htop).mono (prefix_base ..))
      (hd.mono (by simp)) hr ?_ fun q hq => ?_
    · rw [names, List.map_cons, m.fetch_eq hnot hc hv, if_pos rfl] at hleaf
      exact hleaf
    · have hne : q ≠ [] := fun he => not_apart_nil (he ▸ hq)
      have hf := hframe (top.text :: q) (apart_cons.mpr (.inr hq))
      rw [m.fetch_eq hnot hc hv, if_pos rfl] at hf
      rw [hf, fetch_child hc hv htop hne]

-- ---------------------------------------------------------------------------
-- One write
-- ---------------------------------------------------------------------------

theorem convert_undefined : convert conv .undefined data = data := by
  unfold convert
  split
  · rfl
  · cases data <;> rfl

theorem convert_empty : convert conv (.string "") data = data ↔
    data.typeof ≠ "number" ∧ data.typeof ≠ "boolean" := by
  cases data <;> simp [convert, Val.typeof]

theorem fetch_of_ne_object (hv : (fetch h v ks.dropLast).typeof ≠ "object") (hks : ks ≠ []) :
    fetch h v ks = .undefined := by
  induction ks generalizing v with
  | nil => exact absurd rfl hks
  | cons k ks ih =>
    cases ks with
    | nil => exact own_of_ne_object hv k
    | cons k' ks => exact ih hv (List.cons_ne_nil _ _)

/-- A write is put into the document as asked for, if and only if it is writable. -/
theorem put_iff (conv : Conversions) (hc : Closed h) (hv : Held h v) (hd : Good h.length w.data) :
    (∃ v' h', replaceData conv w.data w.path v h = (some v', h') ∧ Put conv w h v h' v') ↔
      Writable w h v := by
  constructor
  · rintro ⟨v', h', hr, hput⟩
    have hne : fetch h' v' (names w.path) ≠ .undefined := by
      rw [hput.leaf]
      exact (convert_good hd _).1
    have hp := plainPath_of_fetch hc hv hd hr hne hput.frame
    refine ⟨hp, ?_⟩
    by_cases hpath : w.path = []
    · exact .inl hpath
    · have hks : names w.path ≠ [] := fun he => hpath (List.map_eq_nil_iff.mp he)
      refine .inr ?_
      by_cases hobj : (fetch h v (names w.path).dropLast).typeof = "object"
      · exact .inl hobj
      · refine .inr ?_
        have hleaf := hput.leaf
        rw [fetch_leaf hc hv hd hp hr, leafOrg_eq hks, if_neg hobj, fetch_of_ne_object hobj hks,
          convert_undefined] at hleaf
        exact convert_empty.mp hleaf
  · rintro ⟨hp, hparent⟩
    obtain ⟨v', h', hr⟩ := replaceData_isSome conv w.data hc hv hp
    refine ⟨v', h', hr, ?_, fun q hq => fetch_apart hc hv hd hp hr hq,
      fun q hq hne ha => isArray_way hc hv hd hp hr hq hne ha⟩
    rw [fetch_leaf hc hv hd hp hr]
    by_cases hpath : w.path = []
    · rw [hpath]
      rfl
    · have hks : names w.path ≠ [] := fun he => hpath (List.map_eq_nil_iff.mp he)
      rw [leafOrg_eq hks]
      by_cases hobj : (fetch h v (names w.path).dropLast).typeof = "object"
      · rw [if_pos hobj]
      · rw [if_neg hobj, fetch_of_ne_object hobj hks, convert_undefined]
        exact convert_empty.mpr ((hparent.resolve_left hpath).resolve_left hobj)

-- ---------------------------------------------------------------------------
-- The item
-- ---------------------------------------------------------------------------

/-- What a `gtItem` holds for its writes; a request is the list of its `args`. -/
structure Item where
  heap : Heap
  i_data : Val
  i_temp : Val
  i_writeQueue : List (List Write)
  i_writeResultQueue : List (List Write)
  deriving DecidableEq, Repr

/-- The `data` and the `command` of a POST. -/
structure Post where
  data : Val
  command : Val
  deriving DecidableEq, Repr

/-- The answer to a POST; the message may be a new document. -/
inductive Reply
  | error (status2 : Nat)
  | ok (updated : Option Val)
  deriving DecidableEq, Repr

namespace Item

variable (conv)

/-- The loop over the queue. Where it throws, what is in `i_temp` is not looked at any more. -/
def writeLoop (s : Item) : List (List Write) → Item × Bool
  | [] => ({ s with i_writeQueue := [] }, true)
  | req :: rest =>
    match merge conv req s.i_temp s.heap with
    | (none, h) => ({ s with heap := h, i_writeQueue := rest }, false)
    | (some temp, h) =>
      writeLoop { s with
        heap := h
        i_temp := temp
        i_writeQueue := rest
        i_writeResultQueue := s.i_writeResultQueue ++ [req] } rest

/-- `ACT_gtItem_WRITE`, and the POST that is sent. -/
def actWrite (s : Item) : Item × Option Post :=
  let (s, done) := writeLoop conv { s with i_temp := s.i_data } s.i_writeQueue
  if done = false ∨ s.i_temp = .null ∨ s.i_temp = .undefined then (s, none)
  else
    let command := own s.heap s.i_temp "command"
    (s, some ⟨own s.heap s.i_temp "data",
      if command.truthy then command else .string "write"⟩)

/-- What `ACT_gtItem_WRITE_RET` does to the document. -/
def writeRet (s : Item) : Reply → Item
  | .error _ => s
  | .ok updated => { s with i_data := updated.getD s.i_temp, i_temp := .null }

def writes (s : Item) : List Write := s.i_writeQueue.flatten

/-- The document is an object in a closed heap, and so are the data; the paths are under `data`
or `command`. -/
structure Sound (s : Item) : Prop where
  closed : Closed s.heap
  data : Good s.heap.length s.i_data
  object : s.i_data.typeof = "object" ∧ s.i_data ≠ .null
  writes : ∀ w ∈ s.writes, Good s.heap.length w.data ∧ filterHash w.path = true

/-- The writes are put into the document, one after the other. -/
def Each : List Write → Val → Heap → Val → Heap → Prop
  | [], v, h, v', h' => v' = v ∧ h' = h
  | w :: ws, v, h, v', h' => ∃ v₁ h₁, replaceDataTop conv w v h = (some v₁, h₁) ∧
      Put conv w h v h₁ v₁ ∧ Each ws v₁ h₁ v' h'

/-- Each write is writable in the document it comes to. -/
def AllWritable : List Write → Val → Heap → Prop
  | [], _, _ => True
  | w :: ws, v, h => Writable w h v ∧
      ∀ v₁ h₁, replaceDataTop conv w v h = (some v₁, h₁) → AllWritable ws v₁ h₁

/-- The document of the POST is the cached one with the writes, and the cached one reads the
same at each path until an answer that is no error. -/
structure Merged (s : Item) : Prop where
  applied : Each conv s.writes s.i_data s.heap (actWrite conv s).1.i_temp (actWrite conv s).1.heap
  post : ∃ post, (actWrite conv s).2 = some post ∧
    post.data = own (actWrite conv s).1.heap (actWrite conv s).1.i_temp "data" ∧
    ((own (actWrite conv s).1.heap (actWrite conv s).1.i_temp "command").truthy = true →
      post.command = own (actWrite conv s).1.heap (actWrite conv s).1.i_temp "command")
  kept : (actWrite conv s).1.i_data = s.i_data ∧
    ∀ status, ((actWrite conv s).1.writeRet (.error status)).i_data = s.i_data
  reads : ∀ q, fetch (actWrite conv s).1.heap s.i_data q = fetch s.heap s.i_data q
  accepted : ((actWrite conv s).1.writeRet (.ok none)).i_data = (actWrite conv s).1.i_temp

variable {conv} {s : Item} {ws : List Write}

theorem replaceDataTop_grows (conv : Conversions) (w : Write) (org : Val) (h : Heap) :
    h <+: (replaceDataTop conv w org h).2 := by
  unfold replaceDataTop
  split
  · exact replaceData_grows ..
  · exact List.prefix_refl h

theorem merge_grows : h <+: (merge conv ws v h).2 := by
  induction ws generalizing v h with
  | nil => exact List.prefix_refl h
  | cons w ws ih =>
    rw [merge]
    have hp := replaceDataTop_grows conv w v h
    split
    · rename_i g hr
      rwa [hr] at hp
    · rename_i temp g hr
      rw [hr] at hp
      exact hp.trans ih

theorem merge_append (ws' : List Write) : merge conv (ws ++ ws') v h =
    match merge conv ws v h with
    | (none, h) => (none, h)
    | (some temp, h) => merge conv ws' temp h := by
  induction ws generalizing v h with
  | nil => rfl
  | cons w ws ih =>
    rw [List.cons_append, merge, merge]
    split
    · rfl
    · exact ih

/-- The loop merges the writes of all requests. -/
theorem writeLoop_eq (conv : Conversions) (s : Item) (reqs : List (List Write)) :
    (writeLoop conv s reqs).1.heap = (merge conv reqs.flatten s.i_temp s.heap).2 ∧
      (writeLoop conv s reqs).1.i_data = s.i_data ∧
      ∀ temp, (merge conv reqs.flatten s.i_temp s.heap).1 = some temp →
        (writeLoop conv s reqs).2 = true ∧ (writeLoop conv s reqs).1.i_temp = temp := by
  induction reqs generalizing s with
  | nil => exact ⟨rfl, rfl, fun temp h => ⟨rfl, Option.some.inj h⟩⟩
  | cons req rest ih =>
    rw [List.flatten_cons, merge_append, writeLoop]
    split
    · exact ⟨rfl, rfl, nofun⟩
    · exact ih _

theorem Each.merge_eq (he : Each conv ws v h v' h') : merge conv ws v h = (some v', h') := by
  induction ws generalizing v h with
  | nil =>
    obtain ⟨rfl, rfl⟩ := he
    rfl
  | cons w ws ih =>
    obtain ⟨v₁, h₁, hr, -, he⟩ := he
    rw [merge, hr]
    exact ih he

theorem replaceDataTop_held (hc : Closed h) (hv : Good h.length v) (hd : Good h.length w.data)
    (hr : replaceDataTop conv w v h = (some v', h')) : Closed h' ∧ Good h'.length v' := by
  unfold replaceDataTop at hr
  split at hr
  · have hall := hc.replaceData conv w.path v hd
    rw [hr] at hall
    exact ⟨hall.1, hall.2 v' rfl⟩
  · cases hr
    exact ⟨hc, hv⟩

theorem each_iff (conv : Conversions) (hc : Closed h) (hv : Good h.length v)
    (hw : ∀ w ∈ ws, Good h.length w.data ∧ filterHash w.path = true) :
    (∃ v' h', Each conv ws v h v' h') ↔ AllWritable conv ws v h := by
  induction ws generalizing v h with
  | nil => exact ⟨fun _ => trivial, fun _ => ⟨v, h, rfl, rfl⟩⟩
  | cons w ws ih =>
    obtain ⟨hd, hpath⟩ := hw w List.mem_cons_self
    have htop : replaceDataTop conv w v h = replaceData conv w.data w.path v h := if_pos hpath
    have hput := put_iff conv hc (.inr hv) hd
    have hnext : ∀ v₁ h₁, replaceDataTop conv w v h = (some v₁, h₁) →
        ((∃ v' h', Each conv ws v₁ h₁ v' h') ↔ AllWritable conv ws v₁ h₁) := by
      intro v₁ h₁ hr
      obtain ⟨hc₁, hv₁⟩ := replaceDataTop_held hc hv hd hr
      have hp := replaceDataTop_grows conv w v h
      rw [hr] at hp
      exact ih hc₁ hv₁ fun x hx =>
        ((hw x (List.mem_cons_of_mem _ hx)).imp_left fun hg => hg.mono hp.length_le)
    constructor
    · rintro ⟨v', h', v₁, h₁, hr, hp, he⟩
      refine ⟨hput.mp ⟨v₁, h₁, htop ▸ hr, hp⟩, fun v₂ h₂ hr₂ => ?_⟩
      rw [hr] at hr₂
      cases hr₂
      exact (hnext v₁ h₁ hr).mp ⟨v', h', he⟩
    · rintro ⟨hwr, hall⟩
      obtain ⟨v₁, h₁, hr, hp⟩ := hput.mpr hwr
      obtain ⟨v', h', he⟩ := (hnext v₁ h₁ (htop.trans hr)).mpr (hall v₁ h₁ (htop.trans hr))
      exact ⟨v', h', v₁, h₁, htop.trans hr, hp, he⟩

/-- A write makes a new object of the document. -/
theorem exists_ref (hr : replaceData conv data (top :: path) org h = (some v', h')) :
    ∃ a, v' = .ref a := by
  rw [replaceData_cons] at hr
  generalize replaceData conv data path (child h org top) (h ++ [base h org top]) = r at hr
  obtain ⟨_ | v₁, g⟩ := r
  · cases hr
  · simp only [place] at hr
    split at hr
    · cases hr
    · cases hr
      exact ⟨_, rfl⟩

theorem Each.object (he : Each conv ws v h v' h') (hw : ∀ w ∈ ws, filterHash w.path = true)
    (ho : v ≠ .null ∧ v ≠ .undefined) : v' ≠ .null ∧ v' ≠ .undefined := by
  induction ws generalizing v h with
  | nil =>
    obtain ⟨rfl, -⟩ := he
    exact ho
  | cons w ws ih =>
    obtain ⟨v₁, h₁, hr, -, he⟩ := he
    refine ih he (fun x hx => hw x (List.mem_cons_of_mem _ hx)) ?_
    have hpath := hw w List.mem_cons_self
    rw [replaceDataTop, if_pos hpath] at hr
    cases hp : w.path with
    | nil =>
      rw [hp] at hpath
      cases hpath
    | cons top path =>
      rw [hp] at hr
      obtain ⟨a, rfl⟩ := exists_ref hr
      exact ⟨nofun, nofun⟩

theorem actWrite_fst (s : Item) : (actWrite conv s).1 =
    (writeLoop conv { s with i_temp := s.i_data } s.i_writeQueue).1 := by
  unfold actWrite
  dsimp only
  split
  · rfl
  · rfl

theorem actWrite_post (s : Item)
    (hdone : (writeLoop conv { s with i_temp := s.i_data } s.i_writeQueue).2 = true)
    (ht : (actWrite conv s).1.i_temp ≠ .null ∧ (actWrite conv s).1.i_temp ≠ .undefined) :
    ∃ post, (actWrite conv s).2 = some post ∧
      post.data = own (actWrite conv s).1.heap (actWrite conv s).1.i_temp "data" ∧
      ((own (actWrite conv s).1.heap (actWrite conv s).1.i_temp "command").truthy = true →
        post.command = own (actWrite conv s).1.heap (actWrite conv s).1.i_temp "command") := by
  rw [actWrite_fst] at ht ⊢
  unfold actWrite
  dsimp only
  rw [if_neg]
  · exact ⟨_, rfl, rfl, fun h => if_pos h⟩
  · rintro (h | h | h)
    · exact absurd (hdone.symm.trans h) nofun
    · exact ht.1 h
    · exact ht.2 h

/-- The document of a POST is the cached one with the writes, and the cached one is not changed
before an answer that is no error, if and only if each write is writable. -/
theorem merged_iff (hs : s.Sound) :
    Merged conv s ↔ AllWritable conv s.writes s.i_data s.heap := by
  obtain ⟨hheap, hdata, htemp⟩ := writeLoop_eq conv { s with i_temp := s.i_data } s.i_writeQueue
  rw [← actWrite_fst] at hheap hdata
  constructor
  · intro hm
    exact (each_iff conv hs.closed hs.data hs.writes).mp ⟨_, _, hm.applied⟩
  · intro hall
    obtain ⟨v', h', he⟩ := (each_iff conv hs.closed hs.data hs.writes).mpr hall
    have hmerge : merge conv s.i_writeQueue.flatten s.i_data s.heap = (some v', h') := he.merge_eq
    obtain ⟨hdone, hv'⟩ := htemp v' (by rw [hmerge])
    have hv : (actWrite conv s).1.i_temp = v' := (congrArg i_temp (actWrite_fst s)).trans hv'
    have hh : (actWrite conv s).1.heap = h' := hheap.trans (by rw [hmerge])
    have hobj := he.object (fun w hw => (hs.writes w hw).2)
      ⟨hs.object.2, fun hu => absurd hs.object.1 (by rw [hu]; decide)⟩
    refine ⟨?_, ?_, ⟨hdata, fun _ => hdata⟩, fun q => ?_, rfl⟩
    · rw [hv, hh]
      exact he
    · exact actWrite_post s hdone (hv ▸ hobj)
    · refine fetch_grow hs.closed ?_ (.inr hs.data) q
      rw [hheap]
      exact merge_grows

/-- Conversions of integers; only a number is a length. -/
def integers : Conversions where
  text
    | .real q => toString q.num
    | _ => "NaN"
  length
    | _, .number (.real q) => some q.num.toNat
    | _, _ => none

/-- A document of one string, and a write to it. -/
def stored (path : List PathElement) : Item where
  heap := [.object [("data", .ref 1)], .object [("a", .string "x")]]
  i_data := .ref 0
  i_temp := .null
  i_writeQueue := [[⟨path, .number (.real 5)⟩]]
  i_writeResultQueue := []

theorem stored_sound (path : List PathElement) (hp : filterHash path = true) :
    (stored path).Sound := by
  refine ⟨?_, ⟨nofun, nofun, fun a ha => ?_⟩, ⟨rfl, nofun⟩, fun w hw => ?_⟩
  · intro c hc p hp
    simp only [stored, List.mem_cons, List.not_mem_nil, or_false] at hc
    rcases hc with rfl | rfl
    · obtain rfl := List.mem_singleton.mp hp
      exact ⟨nofun, nofun, fun a ha => by cases ha; exact Nat.one_lt_two⟩
    · obtain rfl := List.mem_singleton.mp hp
      exact ⟨nofun, nofun, nofun⟩
  · cases ha
    exact Nat.two_pos
  · obtain rfl : w = ⟨path, .number (.real 5)⟩ := by simpa [stored, writes] using hw
    exact ⟨⟨nofun, nofun, nofun⟩, hp⟩

/-- A number in the place of a string. -/
theorem merged_iff_string :
    Merged integers (stored [.name "data", .name "a"]) ∧
      let s := (actWrite integers (stored [.name "data", .name "a"])).1
      fetch s.heap s.i_temp ["data", "a"] = .string "5" := by
  refine ⟨(merged_iff (stored_sound _ rfl)).mpr ⟨⟨?_, .inr (.inl ?_)⟩, fun _ _ _ => trivial⟩, ?_⟩
  · refine plainPath_cons.mpr ⟨by decide, plainPath_cons.mpr ⟨by decide, ?_⟩⟩
    exact fun q k hq => by simp at hq
  · decide
  · decide +kernel

/-- A number at a path whose parent is missing becomes a string. -/
theorem merged_stringifies :
    let s := stored [.name "data", .name "b", .name "c"]
    s.Sound ∧ ¬ Merged integers s ∧
      fetch (actWrite integers s).1.heap (actWrite integers s).1.i_temp ["data", "b", "c"] =
        .string "5" ∧
      fetch s.heap s.i_data ["data", "b", "c"] = .undefined := by
  have hnew : fetch (actWrite integers (stored [.name "data", .name "b", .name "c"])).1.heap
      (actWrite integers (stored [.name "data", .name "b", .name "c"])).1.i_temp
      ["data", "b", "c"] = .string "5" := by decide +kernel
  refine ⟨stored_sound _ rfl, fun hm => ?_, hnew, by decide⟩
  obtain ⟨v₁, h₁, -, hput, hv, hh⟩ := hm.applied
  have hleaf := hput.leaf
  rw [← hv, ← hh] at hleaf
  have habs := hnew.symm.trans hleaf
  revert habs
  decide +kernel

end Item

end TinyState.Js.GtItem
