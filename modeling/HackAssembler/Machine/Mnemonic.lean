-- SUMMARY: The fields of a compute instruction and what can be wrong with a mnemonic.

/-!
# Mnemonics

A compute instruction has three fields, each written as a mnemonic. Reading a
mnemonic fails in one of two ways, and the message names the field.
-/

namespace HackAssembler

/-- The fields of a compute instruction. -/
inductive Field where
  | dest
  | comp
  | jump
  deriving DecidableEq, Repr

/-- The name of a field in messages. -/
def Field.name : Field → String
  | .dest => "dest"
  | .comp => "comp"
  | .jump => "jump"

/-- Why a text is not a mnemonic of a field. -/
inductive MnemonicError where
  /-- No mnemonic of the field reads like this. -/
  | unknown (field : Field) (text : String)
  /-- There is no text at all. -/
  | empty (field : Field)
  deriving DecidableEq, Repr

def MnemonicError.message : MnemonicError → String
  | .unknown field text => s!"Unknown {field.name} mnemonic: {text}"
  | .empty field => s!"Empty {field.name} mnemonic"

end HackAssembler
