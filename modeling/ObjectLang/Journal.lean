/-!
Journal records: what the phases of compilation and execution say about their progress.
-/
namespace ObjectLang

inductive Severity where
  | warn
  | info
  | debug
  | trace

def Severity.text : Severity → String
  | .warn => "WARN"
  | .info => "INFO"
  | .debug => "DEBUG"
  | .trace => "TRACE"

structure Record where
  severity : Severity
  message : String

namespace Record

def warn (message : String) : Record := ⟨.warn, message⟩

def info (message : String) : Record := ⟨.info, message⟩

def debug (message : String) : Record := ⟨.debug, message⟩

def trace (message : String) : Record := ⟨.trace, message⟩

def text (r : Record) : String := r.severity.text ++ " " ++ r.message

end Record

end ObjectLang
