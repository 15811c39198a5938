import Mathlib
import Eureka.ByteText

/-! What the parsing library hands to the ingestion loops: per document an optional
value for each field and access kind, and the place of its text in the mapped file. -/
namespace Eureka.Simdjson
open WordBytes ByteText

/-- A lookup is `none` exactly where the library's result carries an error. -/
structure Document where
  getUint64 : String → Option Word
  getString : String → Option Bytes
  /-- Offset in the mapped view and text of `raw_json()`. -/
  rawJson : Option (Word × Bytes)

structure Parser where
  /-- `iterate` on one padded line. A malformed line is a document whose lookups all fail. -/
  iterate : Bytes → Document
  /-- `iterate_many` on a mapped file: `none` if the stream cannot be started, and one
  `none` entry for each document that carries an error. -/
  iterateMany : Bytes → Option (List (Option Document))

/-- `status_val` of the extraction loops: zero unless the field is an unsigned integer. -/
def Document.status (d : Document) : Word := (d.getUint64 "status").getD 0

def Document.latency (d : Document) : Word := (d.getUint64 "latency").getD 0

/-- What a lookup in a malformed text finds. -/
def Document.malformed : Document := ⟨fun _ => none, fun _ => none, none⟩

/-- The document with this text at this offset that holds the given integer fields. -/
def Document.ofFields (text : Bytes) (offset : Word) (status latency : Option Word) : Document where
  getUint64 f := if f = "status" then status else if f = "latency" then latency else none
  getString _ := none
  rawJson := some (offset, text)

/-- A parser that finds the given stream in every file, and its first document in every line. -/
def Parser.ofStream (docs : List (Option Document)) : Parser where
  iterate _ := ((docs.filterMap id).head?).getD .malformed
  iterateMany _ := some docs

section samples

def fullLine : Bytes := ascii "\x7b\"status\": 500, \"latency\": 250\x7d"

def statusLine : Bytes := ascii "\x7b\"status\": 200\x7d"

def fullDocument : Document := .ofFields fullLine 0 (some 500) (some 250)

/-- `fullLine` and `statusLine`, each with a newline. -/
def sampleFile : Bytes := fullLine ++ 0x0a#8 :: (statusLine ++ [0x0a#8])

def sampleStream : List (Option Document) :=
  [some fullDocument, some (.ofFields statusLine 32 (some 200) none)]

end samples

end Eureka.Simdjson
