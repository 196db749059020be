import TaggedOutline.Text.Basic

/-!
# Escapes in comments

Two colons open and close a remark, so a tag or a remark is written without two colons in a row:
backslashes are doubled and every colon beside another colon follows a backslash. A colon that
stands alone is written as it is.
-/

namespace TaggedOutline.Comment

/-- Escapes a text whose preceding character was a colon iff `afterColon`. -/
def escapeFrom (afterColon : Bool) : Text → Text
  | [] => []
  | c :: r =>
    if c = '\\' then '\\' :: '\\' :: escapeFrom false r
    else if c = ':' then
      if afterColon || r.head? = some ':' then '\\' :: ':' :: escapeFrom true r
      else ':' :: escapeFrom true r
    else c :: escapeFrom false r

/-- The written form of a tag or a remark. -/
def escape (t : Text) : Text := escapeFrom false t

/-- A backslash before a backslash or a colon is dropped; any other stands for itself. -/
def unescape : Text → Text
  | '\\' :: '\\' :: r => '\\' :: unescape r
  | '\\' :: ':' :: r => ':' :: unescape r
  | c :: r => c :: unescape r
  | [] => []

end TaggedOutline.Comment
