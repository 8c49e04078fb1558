/-!
# Line breaks

A text read from a stream has one kind of line break: a carriage return, with the line feed behind
it if there is one, is read as a line feed. Every line that is written ends with one.
-/

namespace Little

/-- A text with every line break written as a line feed. -/
def unifyNewlines : List Char → List Char
  | [] => []
  | '\r' :: '\n' :: rest => '\n' :: unifyNewlines rest
  | '\r' :: rest => '\n' :: unifyNewlines rest
  | c :: rest => c :: unifyNewlines rest

/-- Lines as they are written, each with its end. -/
def endLines (lines : List String) : String := String.join (lines.map (· ++ "\n"))

theorem carriage_return_not_mem_unify_newlines (text : List Char) : '\r' ∉ unifyNewlines text := by
  fun_induction unifyNewlines text with
  | case1 => simp
  | case2 rest ih => simp [ih]
  | case3 rest _ ih => simp [ih]
  | case4 c rest _ hc ih => simp [ih, Ne.symm hc]

end Little
