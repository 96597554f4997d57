import Tally.Token.Cursor

namespace Tally

inductive Ending where
  | eof (position : Position)
  | fault (e : LexError)
deriving DecidableEq

structure TokenStream where
  tokens : List Token
  ending : Ending

namespace TokenStream

def readOn (before : List Token) (c : Cursor) : TokenStream :=
  match _h : c.next with
  | (.error e, _) => ⟨before.reverse, .fault e⟩
  | (.ok t, after) =>
    if _more : t.kind = .eof then ⟨before.reverse, .eof t.start⟩
    else readOn (t :: before) after
termination_by c.rest.length
decreasing_by exact Cursor.length_next_lt _h _more

def ofText (s : String) : TokenStream := readOn [] (Cursor.ofText s)

end TokenStream

def tokenize (s : String) : Except LexError (List Token) :=
  let stream := TokenStream.ofText s
  match stream.ending with
  | .eof position => .ok (stream.tokens ++ [⟨.eof, "", position⟩])
  | .fault e => .error e

end Tally
