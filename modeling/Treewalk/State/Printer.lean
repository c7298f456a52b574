/-!
Where printed lines go. A buffer keeps them until it is cleared, standard
output takes them for good, and a silent printer drops them.
-/
namespace Treewalk

inductive Sink where
  | stdout
  | buffer
  | silent
deriving DecidableEq

/-- A sink, the text a buffer holds, and the text still to be written to
standard output. -/
structure Printer where
  sink : Sink
  held : String := ""
  pending : String := ""
deriving DecidableEq

namespace Printer

def println (line : String) (printer : Printer) : Printer :=
  match printer with
  | ⟨.stdout, held, pending⟩ => ⟨.stdout, held, (pending ++ line).push '\n'⟩
  | ⟨.buffer, held, pending⟩ => ⟨.buffer, (held ++ line).push '\n', pending⟩
  | ⟨.silent, held, pending⟩ => ⟨.silent, held, pending⟩

/-- What has been captured; only a buffer captures. -/
def output (printer : Printer) : String :=
  match printer.sink with
  | .buffer => printer.held
  | .stdout | .silent => ""

def clear (printer : Printer) : Printer :=
  match printer.sink with
  | .buffer => { printer with held := "" }
  | .stdout | .silent => printer

def flush (printer : Printer) : String × Printer :=
  (printer.pending, { printer with pending := "" })

@[simp] theorem sink_println (line : String) (printer : Printer) :
    (printer.println line).sink = printer.sink := by
  obtain ⟨sink, held, pending⟩ := printer
  cases sink <;> rfl

end Printer

end Treewalk
