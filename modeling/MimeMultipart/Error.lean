import MimeMultipart.Limits
/-!
# Errors

The causes for which reading a message, a header or a parameter fails, each with its text in
one function. The texts are part of the library's contract.
-/

namespace MimeMultipart

/-- Which filename parameter of a Content-Disposition a decoding error is about: `filename`,
percent-decoded when it holds a `%`, or `filename*`, in the `charset'language'value` form. -/
inductive FilenameField where
  | plain
  | extended
  deriving DecidableEq, Repr

def FilenameField.key : FilenameField → String
  | .plain => "filename"
  | .extended => "filename*"

/-- Why a piece of text or a delimiter was refused. -/
inductive ParseError where
  | emptyDelimiter
  | invalidContentType
  | notMultipart
  | missingBoundary
  | emptyBoundary
  | invalidPartContentType
  | bodyNotText
  | invalidDisposition
  | invalidDispositionParameter
  | invalidQuotedValue
  | unterminatedQuotedValue
  | invalidExtendedFilename
  | unsupportedCharset
  | invalidPercentEncoding (field : FilenameField)
  | notUtf8 (field : FilenameField)
  | invalidFieldName
  | invalidFieldValue
  | fieldValueNotLatin1
  deriving DecidableEq, Repr

def ParseError.message : ParseError → String
  | .emptyDelimiter => "delimiter cannot be empty"
  | .invalidContentType => "invalid Content-Type header"
  | .notMultipart => "Content-Type must be a multipart type"
  | .missingBoundary => "missing multipart boundary parameter"
  | .emptyBoundary => "multipart boundary cannot be empty"
  | .invalidPartContentType => "invalid part Content-Type header"
  | .bodyNotText => "part body is not valid UTF-8"
  | .invalidDisposition => "invalid Content-Disposition header"
  | .invalidDispositionParameter => "invalid Content-Disposition parameter format"
  | .invalidQuotedValue => "invalid quoted parameter value"
  | .unterminatedQuotedValue => "unterminated quoted parameter value"
  | .invalidExtendedFilename => "invalid filename* parameter encoding"
  | .unsupportedCharset => "only UTF-8 filename* charset is supported"
  | .invalidPercentEncoding f => "invalid percent-encoding in " ++ f.key
  | .notUtf8 f => f.key ++ " is not valid UTF-8"
  | .invalidFieldName => "invalid part header name"
  | .invalidFieldValue => "invalid part header value"
  | .fieldValueNotLatin1 => "header value is not ISO-8859-1"

/-- A message used out of order: its preamble taken already or after its parts were requested,
its parts requested already, or the message left unusable by an earlier failure. -/
inductive StateError where
  | preambleUnavailable
  | partsUnavailable
  | poisoned
  deriving DecidableEq, Repr

def StateError.message : StateError → String
  | .preambleUnavailable => "preamble is no longer available"
  | .partsUnavailable => "parts sequence was already requested"
  | .poisoned => "multipart message is unusable after an earlier failure"

/-- Why an operation on a stream or a message failed: the source failed, the message was used out
of order, a text was refused, the limits were invalid, or a limit was passed: a part beyond
`max_parts`, a header beyond `max_headers`, a header line longer than `max_header_size`. -/
inductive Failure where
  | source
  | state (e : StateError)
  | parse (e : ParseError)
  | config (e : ConfigError)
  | partsLimit (max : Nat)
  | headersLimit (max : Nat)
  | headerSize (max : Nat)
  deriving DecidableEq, Repr

def Failure.message : Failure → String
  | .source => "source failed"
  | .state e => e.message
  | .parse e => e.message
  | .config e => e.message
  | .partsLimit n => "multipart message exceeded max parts limit of " ++ Nat.repr n
  | .headersLimit n => "part exceeded max headers limit of " ++ Nat.repr n
  | .headerSize n => "part header exceeded max header size of " ++ Nat.repr n ++ " bytes"

end MimeMultipart
