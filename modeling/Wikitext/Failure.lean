/-!
Why an edit or a command is refused. Each cause has a code, a message and, where one helps, a hint.
-/

namespace Wikitext

inductive Failure where
  | unreadableSettings (detail : String)
  | invalidSettings (detail : String)
  | unknownLocale (code available : String)
  | tooLarge (path : String) (size limit : Nat)
  /-- Templates or links are nested deeper than `limit` from the cluster `offset` on. -/
  | tooDeep (offset limit : Nat)
  | markupNotFound (markup : String)
  | emptySelection
  deriving DecidableEq, Repr

namespace Failure

def code : Failure → String
  | unreadableSettings _ => "wte::io_error"
  | invalidSettings _ => "wte::config_parse"
  | unknownLocale _ _ => "wte::unknown_locale"
  | tooLarge _ _ _ => "wte::input_too_large"
  | tooDeep _ _ => "wte::malformed_wikitext"
  | markupNotFound _ => "wte::markup_not_found"
  | emptySelection => "wte::invalid_selection"

def message : Failure → String
  | unreadableSettings detail => detail
  | invalidSettings detail => "failed to parse config file: " ++ detail
  | unknownLocale code _ => "no locale table configured for `" ++ code ++ "`"
  | tooLarge path size limit =>
    "input too large: `" ++ path ++ "` is " ++ toString size ++ " bytes (limit: " ++
      toString limit ++ " bytes)"
  | tooDeep offset limit =>
    "wikitext nesting exceeds " ++ toString limit ++ " levels at grapheme offset " ++
      toString offset
  | markupNotFound markup => "image markup not found in document: `" ++ markup ++ "`"
  | emptySelection => "selection target is empty"

def help? : Failure → Option String
  | unreadableSettings _ => none
  | invalidSettings _ =>
    some "check that wte.toml is valid TOML with a [locales.<code>] section per language"
  | unknownLocale code available =>
    some ("add a [locales." ++ code ++
      "] section to wte.toml or pass --namespace and --alt-param (configured locales: " ++
      available ++ ")")
  | tooLarge _ _ _ => some "increase `max_file_size` in wte.toml or split the article"
  | tooDeep _ _ =>
    some ("the document is too deeply nested to edit safely; check for unbalanced `\x7b\x7b` " ++
      "or `[[`")
  | markupNotFound _ =>
    some "the markup must match the article wikitext exactly, including spacing"
  | emptySelection => some "pass the selected text with `--target`"

end Failure

end Wikitext
