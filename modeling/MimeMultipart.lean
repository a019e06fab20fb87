import MimeMultipart.Text.Blank
import MimeMultipart.Text.Latin1
import MimeMultipart.Text.Utf8
import MimeMultipart.Text.Percent
import MimeMultipart.Limits
import MimeMultipart.Error
import MimeMultipart.Delimiter
import MimeMultipart.Boundary
import MimeMultipart.Stream.Reader
import MimeMultipart.Stream.Source
import MimeMultipart.Stream.Deque
import MimeMultipart.Stream.Pushback
import MimeMultipart.Scanner
import MimeMultipart.Scanner.Buffer
import MimeMultipart.Segments
import MimeMultipart.Layout
import MimeMultipart.MediaType
import MimeMultipart.Disposition
import MimeMultipart.Header
import MimeMultipart.Header.HeaderMap
import MimeMultipart.Header.Block
import MimeMultipart.Part
import MimeMultipart.Message
import MimeMultipart.Script.Answer
import MimeMultipart.Script.Stream
import MimeMultipart.Script.Message
import MimeMultipart.Reference
import MimeMultipart.Proofs.Utf8
import MimeMultipart.Proofs.Disposition
import MimeMultipart.Proofs.HeaderMap
import MimeMultipart.Proofs.Search
import MimeMultipart.Proofs.Leftmost
import MimeMultipart.Proofs.Stream
import MimeMultipart.Proofs.PushbackList
import MimeMultipart.Proofs.ScannerStream
import MimeMultipart.Proofs.Window
import MimeMultipart.Proofs.Chain
import MimeMultipart.Proofs.HeaderBlock
import MimeMultipart.Proofs.Reading
import MimeMultipart.Proofs.Lifecycle
import MimeMultipart.Proofs.Splitting
import MimeMultipart.Proofs.PartsLimit
import MimeMultipart.Proofs.Assembly
import MimeMultipart.Proofs.Chunking
