import MUtils.Compile.CompileMessages

/-!
# The messages of `gl_compile_shader`

A shader is compiled from the sources of its fragments, one behind the other, so the driver's line
numbers count through all of them. `gl_compile_shader` counts the newlines of each fragment and uses
the counts to find, for every message, the fragment and the line in it. The GL calls are left out:
what they leave is the driver's log.
-/

namespace MUtils

structure ShaderFragment where
  name : Text
  source : Text

structure ShaderPackage where
  fragments : List ShaderFragment
  path : Text
  /-- Fragments are numbered by a `uint32_t`. -/
  fits : fragments.length ≤ 2 ^ 32

/-- The source that is compiled. -/
def ShaderPackage.shader (package : ShaderPackage) : Text :=
  (package.fragments.map (·.source)).flatten

/-- The newlines of each source, in `uint32_t`s. -/
def newlineCounts (sources : List Text) : List Nat :=
  sources.map fun source => source.count '\n' % 2 ^ 32

/-- The loop over the counts. Next to a `uint32_t` the line is taken for one as well, and so is the
difference that is stored back into it. -/
def fixUpLine (pMessage : CompileMessage) : Nat → UInt32 → List Nat → CompileMessage
  | _, _, [] => pMessage
  | lastCount, fragment, count :: counts =>
    if pMessage.line % 2 ^ 32 < ((count + lastCount) % 2 ^ 32 : Nat) then
      { pMessage with
        line := (pMessage.line - lastCount).bmod (2 ^ 32)
        fragmentIndex := fragment }
    else fixUpLine pMessage ((lastCount + count) % 2 ^ 32) (fragment + 1) counts

/-- The body of the loop over the messages. -/
def fixUpMessage (fileSource : Text) (counts : List Nat) (pMessage : CompileMessage) :
    CompileMessage :=
  fixUpLine { pMessage with filePath := fileSource } 0 0 counts

/-- The messages for what the driver has logged. -/
def gl_compile_shader (package : ShaderPackage) (infoLog : Text) : CompileResult :=
  let spResult : CompileResult := { fileSource := package.path, messages := [] }
  if infoLog.isEmpty then spResult
  else
    let counts := newlineCounts (package.fragments.map (·.source))
    let spResult := compile_parse_shader_errors spResult infoLog
    { spResult with messages := spResult.messages.map (fixUpMessage spResult.fileSource counts) }

end MUtils
