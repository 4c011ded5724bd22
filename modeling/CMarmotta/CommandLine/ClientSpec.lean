import CMarmotta.CommandLine.Client
import CMarmotta.Service.Dataset

/-!
# What the command line client is for

A file holds namespaces and statements, up to the first callback that the importer cannot treat. The
commands change and print a dataset. When a connection breaks, an import adds the namespaces and the
statements that have arrived, and a list is cut short; only the import, the deletion and the size
tell so, and an import that has failed is called finished all the same.
-/

namespace CMarmotta.MarmottaClient

/-! ## Files -/

/-- What a callback writes, if it can be treated. -/
def Callback.written? (c : Callback) : Option Written := (callback {} c).toOption

/-- The callbacks before the first one that cannot be treated. -/
def readable (callbacks : List Callback) : List Callback :=
  callbacks.takeWhile fun c => c.written?.isSome

/-- All callbacks can be treated. -/
def Readable (callbacks : List Callback) : Prop := ∀ c ∈ callbacks, c.written?.isSome = true

/-- The namespaces of a file. -/
def namespacesOf (callbacks : List Callback) : List Namespace :=
  ((readable callbacks).filterMap Callback.written?).flatMap Written.namespaces

/-- The statements of a file. -/
def statementsOf (callbacks : List Callback) : List Statement :=
  ((readable callbacks).filterMap Callback.written?).flatMap Written.statements

/-! ## Commands on a dataset -/

/-- The dataset after a command. -/
def after (D : Dataset) : Command → Dataset
  | .import _ callbacks nsLink stmtLink _ =>
    (D.next (.addNamespaces (nsLink.arrived (namespacesOf callbacks)))).next
      (.addStatements (stmtLink.arrived (statementsOf callbacks)))
  | .delete pattern link =>
    if link.arrived [pattern] = [] then D else D.next (.removeStatements pattern)
  | _ => D

section Prints

variable [Platform]

/-- What a command may print, or write to its file. -/
inductive Prints (D : Dataset) : Command → Output → Prop
  | imported {callbacks : List Callback} (file : String) (order : List Database)
      (h : Readable callbacks) :
      Prints D (.import file callbacks .holds .holds order)
        (.cout (importingLine file ++
          addedReport (namespacesOf callbacks).length (statementsOf callbacks).length ++
          finishedLine))
  | importFailed {callbacks : List Callback} {nsLink stmtLink : Link} (file : String)
      (order : List Database) (h : Readable callbacks)
      (hlink : (nsLink.ok && stmtLink.ok) = false) :
      Prints D (.import file callbacks nsLink stmtLink order)
        (.cout (importingLine file ++
          s!"Failed writing data to server: {stmtLink.errorMessage}\n" ++ finishedLine))
  | importTerminated {callbacks : List Callback} (file : String) (nsLink stmtLink : Link)
      (order : List Database) (h : ¬ Readable callbacks) (fault : Parser.Fault) :
      Prints D (.import file callbacks nsLink stmtLink order)
        (.terminated (importingLine file) fault)
  | select {pattern : Statement} {link : Link} {l : List Statement} {bytes : Bytes}
      (hbytes : Statements.parse bytes = some l) (hnodup : l.Nodup)
      (hsound : ∀ s ∈ l, s ∈ D.statements ∧ s.Agrees pattern)
      (hcomplete : link.ok = true → ∀ s ∈ D.statements, s.Agrees pattern → s ∈ l) :
      Prints D (.select pattern link) (.out bytes)
  | deleted (pattern : Statement) :
      Prints D (.delete pattern .holds)
        (.cout s!"Deleted {(D.statements.filter fun s => s.Agrees pattern).card} statements.\n")
  | deleteFailed (pattern : Statement) (n : Nat) (message : String) :
      Prints D (.delete pattern (.breaks n message))
        (.cerr s!"Failed deleting statements: {message}\n")
  | size (r : ContextRequest) :
      Prints D (.size r .holds)
        (.cout s!"Size: {(D.statements.filter (Dataset.InContexts r)).card}\n")
  | sizeFailed (r : ContextRequest) (n : Nat) (message : String) :
      Prints D (.size r (.breaks n message)) (.cout "Size: -1\n")
  | namespaces {link : Link} {l : List Namespace} (hnodup : l.Nodup)
      (hsound : ∀ ns ∈ l, D.Binds ns) (hcomplete : link.ok = true → ∀ ns, D.Binds ns → ns ∈ l) :
      Prints D (.namespaces link) (.cout (String.join (l.map namespaceLine)))

/-- The specification of the client. -/
def spec : Refinement.Spec Dataset (Command × Output) where
  Permits D e := Prints D e.1 e.2
  next D e := after D e.1

/-- The statements that a command may add. -/
def Command.added : Command → List Statement
  | .import _ callbacks _ _ _ => statementsOf callbacks
  | _ => []

/-- A regular command, where `K` are the statements of the imported files: the threads of an import
write all databases, and a scan finds what agrees with a pattern. -/
def Command.Regular (K : List Statement) : Command → Prop
  | .import _ callbacks _ _ order =>
    (∀ s ∈ statementsOf callbacks, s ∈ K) ∧
      order.Perm [.ns .byPrefix, .ns .byUrl, .stmt .PCOS, .stmt .OPSC, .stmt .CSPO, .stmt .SPOC]
  | .select pattern _ => pattern.Scans K
  | .delete pattern _ => pattern.Scans K
  | .size r _ => ContextsScan K r ∧ r.Nodup
  | .namespaces _ => True

end Prints

end CMarmotta.MarmottaClient
