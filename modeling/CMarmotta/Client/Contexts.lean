import CMarmotta.Client.Connection
import CMarmotta.Persistence.Spec
import Mathlib.Data.Finset.Card

/-!
# The contexts that a client passes

The operations of a connection take an array of contexts, in which `null` stands for the
statements without a context. This file says what they do with a server that answers every request
as `sail.proto` documents it.
-/

namespace CMarmotta.Client

/-! ## The server as documented -/

namespace Documented

/-- `GetStatements`: the statements that match the pattern, a field that is not set being a
wildcard. -/
def getStatements (S : Finset Statement) (pattern : Statement) : Multiset Statement :=
  (S.filter fun s => s.Agrees pattern).val

/-- `Size`: the number of statements in the contexts, and of all statements if no contexts are
given. -/
def size (S : Finset Statement) (contexts : ContextRequest) : Nat :=
  if contexts = [] then S.card else (S.filter fun s => ∃ r ∈ contexts, s.context = some r).card

/-- One request of `Update`. -/
def apply (S : Finset Statement) : UpdateRequest → Finset Statement
  | .stmtAdded stmt => insert stmt S
  | .stmtRemoved pattern => S.filter fun s => ¬ s.Agrees pattern
  | _ => S

/-- `Update`: the requests are applied in order. -/
def update (S : Finset Statement) (it : List UpdateRequest) : Finset Statement := it.foldl apply S

end Documented

/-! ## The operations -/

/-- `getStatementsInternal`: the union of what the server answers to the patterns. -/
def getStatementsInternal (S : Finset Statement) (subj : Option JResource) (pred : Option JURI)
    (obj : Option JValue) (contexts : List (Option JResource)) : Multiset Statement :=
  (patterns subj pred obj contexts).foldl
    (fun result pattern => result + Documented.getStatements S pattern) 0

/-- `sizeInternal`. -/
def sizeInternal (S : Finset Statement) (contexts : List (Option JResource)) : Nat :=
  Documented.size S (contextRequest contexts)

/-- The context of the statement is in the array. -/
def InContexts (contexts : List (Option JResource)) (s : Statement) : Prop :=
  ∃ ctx ∈ contexts, ctx.map JResource.message = (getContext s).map JResource.message

instance (contexts : List (Option JResource)) (s : Statement) : Decidable (InContexts contexts s) :=
  inferInstanceAs (Decidable (∃ ctx ∈ contexts, _))

/-- The array means the same in every operation. `getStatements` yields the statements that match
and whose context is in the array, each once, `size` counts those whose context is in the array,
and `removeStatements` and `clear` delete what `getStatements` yields. -/
structure ContextsMeanTheSame (S : Finset Statement) (subj : Option JResource) (pred : Option JURI)
    (obj : Option JValue) (contexts : List (Option JResource)) : Prop where
  getStatements : ∀ s, (getStatementsInternal S subj pred obj contexts).count s =
    if s ∈ S ∧ s.Agrees (protoStatement subj pred obj none) ∧ InContexts contexts s then 1 else 0
  size : sizeInternal S contexts = (S.filter (InContexts contexts)).card
  removeStatements : Documented.update S (Update.removeStatements subj pred obj contexts).requests =
    S.filter fun s => s ∉ getStatementsInternal S subj pred obj contexts
  clear : Documented.update S (Update.clear contexts).requests =
    S.filter fun s => s ∉ getStatementsInternal S none none none contexts

end CMarmotta.Client
