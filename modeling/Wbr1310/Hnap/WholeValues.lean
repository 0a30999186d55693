import Wbr1310.Hnap.RequestTree

/-!
# What reaches the database whole

`parse_child` writes the path of every node, text nodes included, into 256 bytes with `sprintf`,
and `lrgdb_set` joins path and value in 255 bytes with `snprintf`. Nobody looks at the result of
`lrgdb_set`. So a long path overruns its buffer, a long value is cut, and a value the database
does not take is lost, while `parse_node` returns 0. Characters stand for bytes.
-/

namespace Wbr1310.Hnap

open Lib Text List

/-- The path fits in the 256 bytes of `rgdb_node`. -/
def fitsPath (path : Text) : Bool := decide (path.length < 256)

def assignment (entry : Text × Text) : Text := entry.1 ++ ' ' :: entry.2

/-- What `lrgdb_set` sends: `snprintf` with 255 bytes leaves 254 characters. -/
def setMessage (node value : Text) : Text := (assignment (node, value)).take 254

/-- `lrgdb_set`: what is stored, when the database takes some of the messages. -/
def lrgdbSet (takes : Text → Bool) (node value : Text) : List Text :=
  [setMessage node value].filter takes

mutual

/-- The call of `parse_child` for the children of a node. -/
def Node.setChildren (takes : Text → Bool) (rgdbNode : Text) : Node → Option (List Text)
  | .element _ children => setChild takes rgdbNode 0 children
  | .data _ _ => some []

/-- `parse_child` with its buffer: what is stored, or nothing if the buffer is overrun. -/
def setChild (takes : Text → Bool) (rgdbNodebase : Text) (index : ℕ) :
    List Node → Option (List Text)
  | [] => some []
  | node :: rest =>
    let index := nextIndex index node rest
    let stored := (node.nodeValue.map (lrgdbSet takes rgdbNodebase)).getD []
    let rgdbNode := rgdbNodebase ++ '/' :: label node.nodeName index
    if fitsPath rgdbNode then do
      let below ← node.setChildren takes rgdbNode
      let behind ← setChild takes rgdbNodebase index rest
      some (stored ++ below ++ behind)
    else none

end

/-- How `parse_node` ends: it returns -1, overruns a buffer, or returns 0 with some of the texts
of the elements stored. -/
inductive Parsed where
  | failed
  | overrun
  | done (stored : List Text)
  deriving DecidableEq

/-- `parse_node`, after the parser has given a document or not. -/
def parseNodeInto (takes : Text → Bool) (actionName : Text) (document : Option Node) : Parsed :=
  match document.bind Node.getParameterNodehead with
  | none => .failed
  | some node =>
    if fitsPath (rgdbNodeBase ++ actionName) then
      match setChild takes (rgdbNodeBase ++ actionName) 0 node.children with
      | some stored => .done stored
      | none => .overrun
    else .overrun

/-- `parse_node` reports a failure, or every text is stored under its path as it was received. -/
def StoredWhole (takes : Text → Bool) (actionName : Text) (document : Option Node) : Prop :=
  parseNodeInto takes actionName document = .failed ∨
    parseNodeInto takes actionName document =
      .done ((parseChild (rgdbNodeBase ++ actionName) 0 (parameters document)).map assignment)

mutual

def Node.pathsBelow (path : Text) : Node → List Text
  | .element _ children => nodePaths path 0 children
  | .data _ _ => []

def nodePaths (base : Text) (index : ℕ) : List Node → List Text
  | [] => []
  | node :: rest =>
    let index := nextIndex index node rest
    let path := base ++ '/' :: label node.nodeName index
    path :: (node.pathsBelow path ++ nodePaths base index rest)

end

/-- The action and every node have a path of at most 255 characters, every text has at most 253
characters with its path, and the database takes it. -/
structure Transmittable (takes : Text → Bool) (base : Text) (l : List Node) : Prop where
  action : base.length ≤ 255
  paths : ∀ path ∈ nodePaths base 0 l, path.length ≤ 255
  texts : ∀ entry ∈ parseChild base 0 l, entry.1.length + entry.2.length ≤ 253
  taken : ∀ entry ∈ parseChild base 0 l, takes (assignment entry)

def messages (entries : List (Text × Text)) : List Text :=
  entries.map fun entry => setMessage entry.1 entry.2

theorem setChild_eq (takes : Text → Bool) (l : List Node) : ∀ base index,
    setChild takes base index l =
      if (nodePaths base index l).all fitsPath then
        some ((messages (parseChild base index l)).filter takes)
      else none := by
  induction l using siblings_induction with
  | h l ih =>
    intro base index
    induction l generalizing index with
    | nil => rfl
    | cons node rest ihrest =>
      have hrest := ihrest fun name children hmem => ih name children (mem_cons_of_mem _ hmem)
      have hbelow : ∀ path, node.setChildren takes path =
          if (node.pathsBelow path).all fitsPath then
            some ((messages (node.parseChildren path)).filter takes) else none := by
        intro path
        cases node with
        | element name children => exact ih name children mem_cons_self path 0
        | data cdata value => rfl
      have hstored : (node.nodeValue.map (lrgdbSet takes base)).getD [] =
          (messages (node.nodeValue.map fun value => (base, value)).toList).filter takes := by
        cases node.nodeValue <;> rfl
      simp only [setChild, nodePaths, parseChild, hbelow, hrest, hstored, all_cons,
        all_append]
      generalize nextIndex index node rest = index'
      generalize base ++ '/' :: label node.nodeName index' = path
      -- the buffer of the node, those below it and those behind it
      cases fitsPath path with
      | false => rfl
      | true =>
        cases (node.pathsBelow path).all fitsPath with
        | false => rfl
        | true =>
          cases (nodePaths base index' rest).all fitsPath with
          | false => rfl
          | true => simp [messages]

theorem filter_map_eq_map_iff {α β : Type*} {p : β → Bool} {f g : α → β} {l : List α} :
    (l.map f).filter p = l.map g ↔ ∀ a ∈ l, f a = g a ∧ p (f a) := by
  constructor
  · intro h
    have hall : (l.map f).filter p = l.map f := by
      apply filter_sublist.eq_of_length
      rw [h, length_map, length_map]
    intro a ha
    refine ⟨map_inj_left.mp (hall.symm.trans h) a ha, ?_⟩
    exact filter_eq_self.mp hall _ (mem_map_of_mem ha)
  · intro h
    rw [filter_eq_self.mpr, map_inj_left.mpr fun a ha => (h a ha).1]
    intro b hb
    obtain ⟨a, ha, rfl⟩ := mem_map.mp hb
    exact (h a ha).2

theorem setMessage_eq_iff (entry : Text × Text) :
    setMessage entry.1 entry.2 = assignment entry ↔ entry.1.length + entry.2.length ≤ 253 := by
  rw [setMessage, take_eq_self_iff, assignment, length_append, length_cons]
  simp only
  omega

theorem setChild_whole_iff (takes : Text → Bool) (base : Text) (l : List Node) :
    setChild takes base 0 l = some ((parseChild base 0 l).map assignment) ↔
      (∀ path ∈ nodePaths base 0 l, path.length ≤ 255) ∧
        ∀ entry ∈ parseChild base 0 l,
          entry.1.length + entry.2.length ≤ 253 ∧ takes (assignment entry) := by
  have hpaths : (nodePaths base 0 l).all fitsPath = true ↔
      ∀ path ∈ nodePaths base 0 l, path.length ≤ 255 := by
    simp only [all_eq_true, fitsPath, decide_eq_true_eq, Nat.lt_succ_iff]
  rw [setChild_eq, ← hpaths]
  by_cases h : (nodePaths base 0 l).all fitsPath = true
  · rw [if_pos h, Option.some.injEq, messages, filter_map_eq_map_iff, and_iff_right h]
    refine forall₂_congr fun entry _ => ?_
    rw [setMessage_eq_iff]
    refine and_congr_right fun hlen => ?_
    rw [(setMessage_eq_iff entry).mpr hlen]
  · rw [if_neg h]
    exact iff_of_false (by simp) fun hall => h hall.1

theorem parseNodeInto_done_iff {takes : Text → Bool} {actionName : Text} {document : Option Node}
    {node : Node} (hnode : document.bind Node.getParameterNodehead = some node)
    (stored : List Text) :
    parseNodeInto takes actionName document = .done stored ↔
      (rgdbNodeBase ++ actionName).length ≤ 255 ∧
        setChild takes (rgdbNodeBase ++ actionName) 0 node.children = some stored := by
  rw [parseNodeInto, hnode]
  simp only
  have hfits : fitsPath (rgdbNodeBase ++ actionName) = true ↔
      (rgdbNodeBase ++ actionName).length ≤ 255 := by
    rw [fitsPath, decide_eq_true_iff, Nat.lt_succ_iff]
  rw [← hfits]
  cases fitsPath (rgdbNodeBase ++ actionName) with
  | false => simp
  | true => cases setChild takes (rgdbNodeBase ++ actionName) 0 node.children <;> simp

theorem parseNodeInto_ne_failed {takes : Text → Bool} {actionName : Text}
    {document : Option Node} {node : Node}
    (hnode : document.bind Node.getParameterNodehead = some node) :
    parseNodeInto takes actionName document ≠ .failed := by
  rw [parseNodeInto, hnode]
  simp only
  split
  · split <;> simp
  · simp

def takesAll : Text → Bool := fun _ => true

end Wbr1310.Hnap
