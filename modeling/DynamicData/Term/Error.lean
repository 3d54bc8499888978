/-!
# Failures of the term decoder
-/

namespace DynamicData

/-- Why a byte string is not the written form of a term. -/
inductive TermError
  | versionMismatch (expected found : UInt8)
  | unexpectedEnd (needed remaining : Nat)
  | unknownTag (code : UInt8)
  | invalidUtf8
  | integerOutOfRange (digits : Nat)
  | improperList
  | depthExceeded (max : Nat)
  | trailingBytes (count : Nat)
  deriving DecidableEq, Repr

namespace TermError

def message : TermError → String
  | .versionMismatch expected found =>
    "Unsupported format version: expected " ++ toString expected.toNat ++ ", found " ++
      toString found.toNat
  | .unexpectedEnd needed remaining =>
    "Unexpected end of payload: needed " ++ toString needed ++ " bytes, " ++
      toString remaining ++ " remaining"
  | .unknownTag code => "Unsupported term tag: " ++ toString code.toNat
  | .invalidUtf8 => "Term contains invalid UTF-8 text"
  | .integerOutOfRange digits =>
    "Integer magnitude of " ++ toString digits ++ " bytes is out of range"
  | .improperList => "Improper lists are not supported"
  | .depthExceeded max => "Term nesting exceeds maximum depth of " ++ toString max
  | .trailingBytes count => toString count ++ " trailing bytes after root term"

def code : TermError → String
  | .versionMismatch .. => "ETF_VERSION_MISMATCH"
  | .unexpectedEnd .. => "ETF_UNEXPECTED_EOF"
  | .unknownTag _ => "ETF_UNKNOWN_TAG"
  | .invalidUtf8 => "ETF_INVALID_UTF8"
  | .integerOutOfRange _ => "ETF_INTEGER_OUT_OF_RANGE"
  | .improperList => "ETF_IMPROPER_LIST"
  | .depthExceeded _ => "ETF_DEPTH_EXCEEDED"
  | .trailingBytes _ => "ETF_TRAILING_BYTES"

end TermError
end DynamicData
