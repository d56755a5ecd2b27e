import Highlight.Language
/-! # Plain text

Every line is one token. Plain text stands in for languages that are not known.
-/
namespace Highlight.PlainText

def scan (s : Scanner) (st : Unit) : Scanner × Unit := ((s.advance s.rest.length).emit .text, st)

def language : Language Unit where
  id := "plaintext".toList
  initial := ()
  scan := scan

end Highlight.PlainText
