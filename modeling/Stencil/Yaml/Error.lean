/-! # Errors of YAML documents

Causes, from the characters up to the value that is asked of a document.  Their wording is up to the
library that reads documents.
-/

namespace Stencil.Yaml

/-- Why a text is not the document that is asked for. -/
inductive Error where
  /-- A character that no document may hold. -/
  | forbiddenCharacter
  /-- A quoted scalar is not closed. -/
  | unclosedQuote
  /-- A line inside a quoted scalar starts like the mark between documents. -/
  | unexpectedDocumentMark
  /-- A backslash is followed by no escape, or by a number that is no character. -/
  | badEscape
  /-- A tab stands where indentation is expected. -/
  | tabInIndentation
  /-- The line that opens a block scalar goes on after its indicators. -/
  | badBlockHeader
  /-- In a flow collection a plain scalar is followed by `:` and an indicator. -/
  | unexpectedColon
  | badAnchor
  | badTag
  | badDirective
  /-- An entry, key or value indicator at a place where none may stand. -/
  | misplacedIndicator
  /-- A line that has to be a key lacks its `:`. -/
  | missingColon
  /-- A character that starts no token. -/
  | strangeCharacter
  /-- A node is expected. -/
  | expectedNode
  /-- An entry or the end of a sequence is expected. -/
  | expectedEntry
  /-- A key or the end of a mapping is expected. -/
  | expectedKey
  /-- The mark that starts a document is expected. -/
  | expectedDocumentStart
  | duplicateDirective
  | unsupportedVersion
  | undefinedTagHandle
  | unknownAlias
  | severalDocuments
  | expectedMapping
  | expectedText
  | expectedFlag
  | expectedNumber
  | expectedName
  | unknownName (name : String)
  | duplicateKey (key : String)
  | missingKey (key : String)
deriving DecidableEq, Repr

end Stencil.Yaml
