/-!
# What can go wrong with a file

An error names its kind and has the wording of the operating system.
-/

namespace PatternAutomata

/-- Why a file could not be read or written. -/
inductive IoError
  | notFound
  | isDirectory
  | notDirectory
  /-- The bytes are not UTF-8. -/
  | invalidData
  /-- The path cannot be that of a file. -/
  | invalidInput
  /-- Any other failure, in the words of the system. -/
  | other (wording : String)
  deriving DecidableEq

namespace IoError

/-- The kind of an error. -/
def kind : IoError → String
  | .notFound => "NotFound"
  | .isDirectory => "IsADirectory"
  | .notDirectory => "NotADirectory"
  | .invalidData => "InvalidData"
  | .invalidInput => "InvalidInput"
  | .other _ => "Other"

/-- The wording of an error. -/
def message : IoError → String
  | .notFound => "No such file or directory (os error 2)"
  | .isDirectory => "Is a directory (os error 21)"
  | .notDirectory => "Not a directory (os error 20)"
  | .invalidData => "stream did not contain valid UTF-8"
  | .invalidInput => "file name contained an unexpected NUL byte"
  | .other wording => wording

end IoError

/-- The text that bytes encode. -/
def decodeText (bytes : ByteArray) : Except IoError String :=
  match String.fromUTF8? bytes with
  | some text => .ok text
  | none => .error .invalidData

/-- Bytes that encode a text give that text back. -/
theorem decodeText_toUTF8 (text : String) : decodeText text.toUTF8 = .ok text := by
  have h : String.fromUTF8? text.toUTF8 = some text := dif_pos text.isValidUTF8
  rw [decodeText, h]

/-- Bytes give no text but the one that they encode. -/
theorem eq_toUTF8_of_decodeText {bytes : ByteArray} {text : String}
    (h : decodeText bytes = .ok text) : bytes = text.toUTF8 := by
  unfold decodeText String.fromUTF8? at h
  split at h
  case h_1 t ht =>
    cases h
    split at ht
    · cases ht
      rfl
    · cases ht
  case h_2 => cases h

/-- Bytes that give no text encode none. -/
theorem ne_toUTF8_of_decodeText {bytes : ByteArray} {e : IoError}
    (h : decodeText bytes = .error e) (text : String) : bytes ≠ text.toUTF8 := by
  rintro rfl
  rw [decodeText_toUTF8] at h
  cases h

/-- Bytes that give no text are refused as such. -/
theorem eq_invalidData_of_decodeText {bytes : ByteArray} {e : IoError}
    (h : decodeText bytes = .error e) : e = .invalidData := by
  unfold decodeText at h
  split at h
  case h_1 => cases h
  case h_2 =>
    cases h
    rfl

end PatternAutomata
