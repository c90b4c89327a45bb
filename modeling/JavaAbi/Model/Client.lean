import JavaAbi.Model.Query
import JavaAbi.Syntax.Parser.Unit

namespace JavaAbi

/-!
# Clients

A client asks a session one question after the other. It may ask about every element by its number,
and about the types that it received.

* `Question` — a question; `Question.query` is the work that it starts;
* `Client.ask`, `Client.askAll` — one question, and many in order;
* `Client.start` — a client of a new session over the files of a batch.
-/

/-- A question. A type is given by its position among those received. -/
inductive Question where
  | lookupType (name : String)
  | lookupPackage (name : String)
  | topLevelTypes
  | duplicates
  | enclosing (id : ElementId)
  | package (id : ElementId)
  | enclosed (id : ElementId)
  | body (id : ElementId)
  | superclass (id : ElementId)
  | interfaces (id : ElementId)
  | ownType (id : ElementId)
  | display (id : ElementId)
  | elementOf (type : Nat)
  | parts (type : Nat)
  | displayType (type : Nat)
  deriving DecidableEq, Inhabited, Repr

/-- What comes back: an answer, a reason for having none, or the breach that stopped the work. -/
inductive Reply where
  | elements (ids : List ElementId)
  | types (types : List ModelType)
  | text (text : String)
  | diagnostics (found : List Diagnostic)
  | unanswered (e : ModelError)
  | stopped (b : Breach)
  deriving Inhabited

/-- The types in a reply. -/
def Reply.received : Reply → List ModelType
  | types ts => ts
  | _ => []

/-- The types that a type is made of: enclosing type and arguments, component, bounds. -/
def ModelType.parts : ModelType → List ModelType
  | declared _ _ args enclosing => enclosing :: args
  | array component => [component]
  | wildcard upper lower => upper.toList ++ lower.toList
  | _ => []

/-- The element that a question is about, for questions about one. -/
def Question.element? : Question → Option ElementId
  | enclosing id | package id | enclosed id | body id | superclass id | interfaces id | ownType id
  | display id => some id
  | _ => none

/-- Work on a type that was received; there is nothing to do for another. -/
def withType (received : List ModelType) (i : Nat) (q : ModelType → Query Reply) : Query Reply :=
  match received[i]? with
  | some t => q t
  | none => return .types []

/-- The work that a question starts. -/
def Question.query (received : List ModelType) : Question → Query Reply
  | lookupType name => return .elements [← JavaAbi.lookupType name]
  | lookupPackage name => return .elements [← JavaAbi.lookupPackage name]
  | topLevelTypes => return .elements (← JavaAbi.topLevelTypes)
  | duplicates => return .diagnostics (← reportDuplicates)
  | enclosing id => return .elements (← elementAt id).enclosing.toList
  | package id => do
    let _ ← elementAt id
    return .elements (← packageOf id).toList
  | enclosed id => return .elements (← enclosedOf id)
  | body id => return .elements (← bodyOf id).toList
  | superclass id => return .types [← superclassOf id]
  | interfaces id => return .types (← interfacesOf id)
  | ownType id => return .types [← JavaAbi.ownType id]
  | display id => return .text (← displayElement id)
  | elementOf i => withType received i fun t => return .elements (← elementOfType t).toList
  | parts i => withType received i fun t => return .types t.parts
  | displayType i => withType received i fun t => return .text (← JavaAbi.displayType t)

/-- A client: its session, and the types that it received, in order. -/
structure Client where
  session : Session
  types : List ModelType := []
  deriving Inhabited

namespace Client

/-- The reply that the outcome of a query makes. -/
def replyOf : Except Breach (Except ModelError Reply) → Reply
  | .ok (.ok r) => r
  | .ok (.error e) => .unanswered e
  | .error b => .stopped b

/-- Asks a question. -/
def ask (c : Client) (r : Question) : Reply × Client :=
  let (outcome, session) := ((r.query c.types).run.run).run c.session
  let reply := replyOf outcome
  (reply, ⟨session, c.types ++ reply.received⟩)

/-- Asks questions in order, and keeps what comes back. -/
def askAll (c : Client) (rs : List Question) : Client := rs.foldl (fun c r => (c.ask r).2) c

/-- A client of a new session over the files of a batch. -/
def start (token : SessionToken) (files : Batch) (provider : Provider) (config : ModelConfig) :
    Client :=
  let (units, names, _) := parseBatch files
  ⟨Session.start token units names provider config, []⟩

end Client

end JavaAbi
