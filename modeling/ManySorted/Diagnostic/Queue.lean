import ManySorted.Diagnostic.Basic

/-!
# The diagnostic queue

A queue keeps diagnostics in the order in which they are added, up to a limit on errors and without
repetitions.  Flushing it hands them out sorted by place and starts afresh.
-/

namespace ManySorted

/-- What a queue keeps. -/
structure QueueConfig where
  /-- The greatest number of errors that are kept; without limit if zero.  Warnings do not count. -/
  errorLimit : Nat := 100
  /-- Whether a diagnostic with the code, place and message of a kept one is dropped. -/
  deduplicate : Bool := true
deriving DecidableEq, Repr

/-- The diagnostics kept since the last flush, oldest first. -/
structure DiagnosticQueue where
  config : QueueConfig := {}
  kept : List Diagnostic := []
deriving DecidableEq, Repr

/-- Whether two diagnostics say the same about the same place. -/
def Diagnostic.sameAs (a b : Diagnostic) : Bool :=
  a.code == b.code && a.primaryLocation == b.primaryLocation && a.message == b.message

/-- The order of flushed diagnostics: by place, and those without a place first. -/
def Diagnostic.placedBefore (a b : Diagnostic) : Bool :=
  match a.primaryLocation, b.primaryLocation with
  | none, _ => true
  | some _, none => false
  | some x, some y => (compare x y).isLE

namespace DiagnosticQueue

/-- The number of errors kept. -/
def errorCount (q : DiagnosticQueue) : Nat := q.kept.countP Diagnostic.isError

def size (q : DiagnosticQueue) : Nat := q.kept.length

def isEmpty (q : DiagnosticQueue) : Bool := q.kept.isEmpty

/-- Whether no further error will be kept. -/
def limitReached (q : DiagnosticQueue) : Bool :=
  0 < q.config.errorLimit && q.config.errorLimit ≤ q.errorCount

/-- Whether `d` would be kept. -/
def admits (q : DiagnosticQueue) (d : Diagnostic) : Bool :=
  !(d.isError && q.limitReached) && !(q.config.deduplicate && q.kept.any d.sameAs)

/-- Adds a diagnostic, unless it is filtered out. -/
def add (q : DiagnosticQueue) (d : Diagnostic) : DiagnosticQueue :=
  if q.admits d then { q with kept := q.kept ++ [d] } else q

/-- The kept diagnostics sorted by place, those of one place in the order of their adding; and the
emptied queue. -/
def flush (q : DiagnosticQueue) : List Diagnostic × DiagnosticQueue :=
  (q.kept.mergeSort Diagnostic.placedBefore, { q with kept := [] })

end DiagnosticQueue

end ManySorted
