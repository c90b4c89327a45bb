import JavaAbi.Model.Element

namespace JavaAbi

/-!
# Inquiries

How an answer depends on lists of supertypes. Resolving a name asks for lists and goes on with what it
is told; making a list resolves names. An inquiry is the first of the two by itself: it answers, or it
asks for the list of a symbol and has an inquiry for every list that it may be told. What a session
tells while lists are being made, and what it tells afterwards, can then be compared.

* `Symbol` — what an element is, without its number;
* `Inquiry` — the inquiries;
* `Inquiry.given` — the answer of an inquiry that is told some lists only;
* `Inquiry.given_mono` — told more, it answers the same.
-/

/-- What an element is, apart from its number in a session and from the numbers of names. -/
inductive Symbol where
  | package (name : String)
  | type (name : String)
  | unnamed (decl : DeclId)
  | field (decl : DeclId) (member number : Nat)
  | constant (decl : DeclId) (member : Nat)
  deriving DecidableEq, Inhabited, Repr

/-- The symbol of a key. -/
def ElementKey.symbol (t : NameTable) : ElementKey → Symbol
  | .package n => .package (t.text n)
  | .type n => .type (t.text n)
  | .unnamed d => .unnamed d
  | .field d m v => .field d m v
  | .constant d m => .constant d m

/-- The canonical name of a symbol that has one. -/
def Symbol.name? : Symbol → Option String
  | package name | type name => some name
  | _ => none

/-- An answer that may depend on lists of supertypes. -/
inductive Inquiry (α : Type) where
  | answer (a : α)
  | ask (symbol : Symbol) (next : List Symbol → Inquiry α)

namespace Inquiry

variable {α β : Type}

/-- An inquiry that goes on where another one has answered. -/
protected def bind : Inquiry α → (α → Inquiry β) → Inquiry β
  | answer a, f => f a
  | ask symbol next, f => ask symbol fun l => (next l).bind f

instance : Monad Inquiry where
  pure := answer
  bind := Inquiry.bind

protected theorem bind_answer (i : Inquiry α) : i.bind answer = i := by
  induction i with
  | answer a => rfl
  | ask symbol next ih => exact congrArg (ask symbol) (funext ih)

protected theorem bind_assoc {γ : Type} (i : Inquiry α) (f : α → Inquiry β) (g : β → Inquiry γ) :
    (i.bind f).bind g = i.bind fun a => (f a).bind g := by
  induction i with
  | answer a => rfl
  | ask symbol next ih => exact congrArg (ask symbol) (funext ih)

instance : LawfulMonad Inquiry :=
  .mk' Inquiry Inquiry.bind_answer (fun _ _ => rfl) Inquiry.bind_assoc

/-- The list of a symbol. -/
def listOf (symbol : Symbol) : Inquiry (List Symbol) := ask symbol answer

/-- The answer of an inquiry that is told these lists, if they are all that it asks for. -/
def given (lists : Symbol → Option (List Symbol)) : Inquiry α → Option α
  | answer a => some a
  | ask symbol next => (lists symbol).bind fun l => (next l).given lists

variable {lists lists' : Symbol → Option (List Symbol)}

@[simp] theorem given_pure (a : α) : (pure a : Inquiry α).given lists = some a := rfl

@[simp] theorem given_listOf (symbol : Symbol) : (listOf symbol).given lists = lists symbol := by
  cases h : lists symbol <;> simp [listOf, given, h]

theorem given_bind (i : Inquiry α) (f : α → Inquiry β) :
    (i >>= f).given lists = (i.given lists).bind fun a => (f a).given lists := by
  show (i.bind f).given lists = _
  induction i with
  | answer a => rfl
  | ask symbol next ih =>
    rw [Inquiry.bind, given, given, Option.bind_assoc]
    congr
    funext l
    exact ih l

/-- **Told more, an inquiry answers the same.** -/
theorem given_mono (h : ∀ symbol l, lists symbol = some l → lists' symbol = some l) {i : Inquiry α}
    {a : α} (ha : i.given lists = some a) : i.given lists' = some a := by
  induction i with
  | answer b => exact ha
  | ask symbol next ih =>
    obtain ⟨l, hl, hn⟩ := Option.bind_eq_some_iff.1 ha
    exact Option.bind_eq_some_iff.2 ⟨l, h symbol l hl, ih l hn⟩

/-- What an inquiry comes to, if it is told lists of which this is known. -/
inductive Finds (lists : Symbol → List Symbol → Prop) : Inquiry α → α → Prop
  | answer (a : α) : Finds lists (answer a) a
  | ask {symbol : Symbol} {next : List Symbol → Inquiry α} {l : List Symbol} {a : α}
      (told : lists symbol l) (rest : Finds lists (next l) a) : Finds lists (ask symbol next) a

section Finds

variable {lists lists' : Symbol → List Symbol → Prop} {a : α}

theorem finds_pure (a : α) : (pure a : Inquiry α).Finds lists a := .answer a

theorem finds_listOf {symbol : Symbol} {l : List Symbol} (h : lists symbol l) :
    (listOf symbol).Finds lists l := .ask h (.answer l)

theorem Finds.bind {i : Inquiry α} {f : α → Inquiry β} {b : β} (h : i.Finds lists a)
    (hf : (f a).Finds lists b) : (i >>= f).Finds lists b := by
  show (i.bind f).Finds lists b
  induction h with
  | answer a => exact hf
  | ask told _ ih => exact .ask told (ih hf)

theorem Finds.bind_inv {i : Inquiry α} {f : α → Inquiry β} {b : β} (h : (i >>= f).Finds lists b) :
    ∃ a, i.Finds lists a ∧ (f a).Finds lists b := by
  replace h : (i.bind f).Finds lists b := h
  induction i with
  | answer a => exact ⟨a, .answer a, h⟩
  | ask symbol next ih =>
    rw [Inquiry.bind] at h
    cases h with
    | ask told rest =>
      obtain ⟨a, ha, hf⟩ := ih _ rest
      exact ⟨a, .ask told ha, hf⟩

theorem Finds.pure_inv {b : α} (h : (pure a : Inquiry α).Finds lists b) : b = a := by
  replace h : (Inquiry.answer a).Finds lists b := h
  cases h
  rfl

theorem Finds.mono (h : ∀ symbol l, lists symbol l → lists' symbol l) {i : Inquiry α}
    (hi : i.Finds lists a) : i.Finds lists' a := by
  induction hi with
  | answer a => exact .answer a
  | ask told _ ih => exact .ask (h _ _ told) ih

end Finds

end Inquiry

end JavaAbi
