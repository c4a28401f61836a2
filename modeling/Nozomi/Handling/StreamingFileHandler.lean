import Nozomi.Filesystem.Path
import Nozomi.Filesystem.InputStream
import Nozomi.Handling.StreamingHTTPHandler

/-! The handler that serves files below a base directory. The path library,
the C time functions, the file system and the buffer allocator are parameters. -/
namespace Nozomi

open Text Filesystem

/-- The fields of `struct tm` that parsing a date can set or `mktime` reads. -/
structure Tm where
  sec : Int
  min : Int
  hour : Int
  mday : Int
  mon : Int
  year : Int
  wday : Int
  yday : Int
  isdst : Int
  deriving DecidableEq

/-- `strptime` starts from the content of the struct and yields nothing where
it returns a null pointer. -/
structure TimeLibrary where
  strptime : Bytes → Bytes → Tm → Option Tm
  mktime : Tm → Int

/-- What the file system answers about a path. `isRegularFile` may throw,
`lastWriteTime` may set an error code, and opening may leave a bad stream. -/
structure FileSystem where
  isRegularFile : Bytes → Throws Bool
  lastWriteTime : Bytes → Option Int
  ifstream : Bytes → Option InputStream

structure StreamingFileHandler where
  base : StreamingHTTPHandler
  path : Bytes
  ifModifiedSince : Int
  readBufferSize : Nat
  rawPath : Bytes

namespace StreamingFileHandler

def create (basePath : Bytes) (readBufferSize : Nat) : StreamingFileHandler :=
  ⟨.create, basePath, 0, readBufferSize, []⟩

def sanitizeStep (library : PathLibrary) (ret component : Bytes) : Bytes :=
  if component = dotDot then library.removeFilename ret
  else if component = dot then ret
  else library.append ret component

def sanitizePath (library : PathLibrary) (path : Bytes) : Bytes :=
  (library.elements path).foldl (sanitizeStep library) []

def setRequestArgs (handler : StreamingFileHandler) (path : Bytes) : StreamingFileHandler :=
  { handler with rawPath := path }

/-- `c_str()` ends at the first null byte. -/
def cString (text : Bytes) : Bytes := text.takeWhile (· ≠ 0)

/-- `expireTime` is the struct as it is found on the stack. -/
def onRequestReceived (library : PathLibrary) (time : TimeLibrary) (expireTime : Tm)
    (handler : StreamingFileHandler) (request : HTTPRequest) : StreamingFileHandler :=
  let handler := { handler with
    path := library.append handler.path (sanitizePath library handler.rawPath) }
  match request.getHeader .ifModifiedSince with
  | none => handler
  | some ifModifiedSinceStr =>
      match time.strptime (cString ifModifiedSinceStr) (ascii "%a, %d %b %Y %T") expireTime with
      | none => handler
      | some expireTime => { handler with ifModifiedSince := time.mktime expireTime }

/-- One iteration of the read loop: the buffer that is handed on, and the
stream after it. -/
def readChunk {size : Nat} (allocator : Allocator size) (call : Nat) (fin : InputStream) :
    Buffer × InputStream :=
  let buf := allocator.create call
  let buf := if buf.length < size then buf.append buf.tailroom (Nat.le_refl _) else buf
  let (bytes, fin) := fin.read size
  let buf := buf.write bytes
  let buf := if fin.gcount < size then buf.trimEnd (size - fin.gcount) else buf
  (buf, fin)

/-- The loop `while (!fin.eof())`, with `none` once the fuel is used up. -/
def readLoop {size : Nat} (allocator : Allocator size) :
    Nat → Nat → InputStream → StreamingHTTPHandler → Option StreamingHTTPHandler
  | 0, _, _, _ => none
  | fuel + 1, call, fin, handler =>
      if fin.eof then some handler
      else
        let (buf, fin) := readChunk allocator call fin
        readLoop allocator fuel (call + 1) fin (handler.sendBody (IOBuf.copyBuffer buf.data))

/-- The task on the I/O executor. -/
def streamFile (fs : FileSystem) (handler : StreamingFileHandler)
    (allocator : Allocator handler.readBufferSize) (fuel : Nat) : Option StreamingHTTPHandler :=
  match fs.ifstream handler.path with
  | none => some (handler.base.sendResponseHeaders (HTTPResponse.ofStatus 404))
  | some fin => readLoop allocator fuel 0 fin
      (handler.base.sendResponseHeaders (HTTPResponse.ofStatus 200))

/-- The file is unchanged since the date that the client sent. -/
def notModified (fs : FileSystem) (handler : StreamingFileHandler) : Bool :=
  match fs.lastWriteTime handler.path with
  | none => false
  | some lastModifiedTime =>
      handler.ifModifiedSince > 0 ∧ handler.ifModifiedSince ≥ lastModifiedTime

/-- The tasks left on the event base, or the exception that escapes. `none`
is a read loop that has not ended within the fuel. -/
def onEOM (fs : FileSystem) (handler : StreamingFileHandler)
    (allocator : Allocator handler.readBufferSize) (fuel : Nat) :
    Throws (Option StreamingHTTPHandler) := do
  let regular ← fs.isRegularFile handler.path
  if !regular then
    return some (handler.base.sendResponseHeaders (HTTPResponse.ofStatus 404)).sendEOF
  else if notModified fs handler then
    return some (handler.base.sendResponseHeaders (HTTPResponse.ofStatus 304)).sendEOF
  else
    return (streamFile fs handler allocator fuel).map StreamingHTTPHandler.sendEOF

end StreamingFileHandler

end Nozomi
