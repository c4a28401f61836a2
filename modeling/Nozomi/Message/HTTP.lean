import Nozomi.Message.IOBuf
import Nozomi.Message.Uri

/-! Requests, responses and the futures that carry responses. Only the parts
of a message that the server reads are kept. -/
namespace Nozomi

open Text

inductive HTTPMethod where
  | get | post | options | delete | head | connect | put | trace | patch
  deriving DecidableEq

/-- Header names, with a code for each one that the server looks up. -/
inductive HTTPHeaderCode where
  | contentType
  | ifModifiedSince
  | other (name : Bytes)
  deriving DecidableEq

abbrev HTTPHeaders := List (HTTPHeaderCode × Bytes)

/-- The value of a header that occurs exactly once, and the empty string
otherwise. -/
def getSingleOrEmpty (headers : HTTPHeaders) (code : HTTPHeaderCode) : Bytes :=
  match headers.filter (·.1 = code) with
  | [(_, value)] => value
  | _ => []

/-- The method is absent when the request line names an unknown one. -/
structure HTTPMessage where
  method : Option HTTPMethod
  path : Bytes
  headers : HTTPHeaders
  deriving DecidableEq

structure HTTPRequest where
  message : HTTPMessage
  body : IOBuf
  deriving DecidableEq

namespace HTTPRequest

/-- A path that does not decode is used as it was sent. -/
def getUnescapedPath (uri : UriLibrary) (originalPath : Bytes) : Bytes :=
  (uri.uriUnescape .path originalPath).getD originalPath

def getMethodAndPath (uri : UriLibrary) (message : HTTPMessage) : HTTPMethod × Bytes :=
  (message.method.getD .get, getUnescapedPath uri message.path)

/-- An empty header value counts as no header. -/
def getHeader (request : HTTPRequest) (code : HTTPHeaderCode) : Option Bytes :=
  let value := getSingleOrEmpty request.message.headers code
  if value = [] then none else some value

def getBodyAsString (request : HTTPRequest) : Throws Bytes := toString request.body

def getBodyAsBytes (request : HTTPRequest) : IOBuf := request.body.clone

end HTTPRequest

structure HTTPResponse where
  statusCode : Int16
  headers : HTTPHeaders
  body : IOBuf
  deriving DecidableEq

namespace HTTPResponse

def ofStatus (statusCode : Int16) : HTTPResponse := ⟨statusCode, [], IOBuf.create⟩

def ofString (statusCode : Int16) (body : Bytes) : HTTPResponse :=
  ⟨statusCode, [], IOBuf.copyBuffer body⟩

def getBody (response : HTTPResponse) : IOBuf := response.body.clone

end HTTPResponse

/-- How a future completes. -/
inductive Outcome where
  | value (response : HTTPResponse)
  | failure (thrown : Thrown)
  deriving DecidableEq

/-- What a call that should return a future does: it throws before returning
one, or the future completes at some later time, or it never completes. -/
inductive Future where
  | throws (thrown : Thrown)
  | completes (outcome : Outcome)
  | never
  deriving DecidableEq

/-- `HTTPResponse::future`, a future that already holds its response. -/
def HTTPResponse.future (response : HTTPResponse) : Future := .completes (.value response)

/-- A request handler, or an error handler: any function from requests. -/
abbrev Handler := HTTPRequest → Future

end Nozomi
