namespace SexprReader

/-- The four marks which stand before a form and wrap it in a two-element list. -/
inductive QuoteMark where
  | quote
  | quasiquote
  | unquote
  | unquoteSplicing
deriving DecidableEq, Repr

namespace QuoteMark

def text : QuoteMark → String
  | quote => "'"
  | quasiquote => "\x60"
  | unquote => ","
  | unquoteSplicing => ",@"

def symbolName : QuoteMark → String
  | quote => "quote"
  | quasiquote => "quasiquote"
  | unquote => "unquote"
  | unquoteSplicing => "unquote-splicing"

def ofText? : String → Option QuoteMark
  | "'" => some quote
  | "\x60" => some quasiquote
  | "," => some unquote
  | ",@" => some unquoteSplicing
  | _ => none

end QuoteMark

end SexprReader
