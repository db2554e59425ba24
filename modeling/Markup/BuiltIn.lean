/-
What ships with the language: the texts of its modules and the bodies of its
ready-made macros.

`text` is a module's name that ships without a text.
-/
namespace Markup.BuiltIn

/-- The modules that are found without a file. -/
def moduleNames : List String := ["text", "html", "markdown"]

/-- Macros that write HTML. -/
def htmlText : String := String.join ([
  "#! html flavoured formatting macros",
  "#def bold $text <strong>$text</strong>#end",
  "#def italic $text <em>$text</em>#end",
  "#def highlight $text <mark>$text</mark>#end",
  "#def strike $text <s>$text</s>#end",
  "#def line <hr>#end",
  "#def sub $text <sub>$text</sub>#end",
  "#def sup $text <sup>$text</sup>#end",
  "#def var $text <code>$text</code>#end",
  "#def ' $text &lsquo;$text&rsquo;#end",
  "#def \" $text &ldquo;$text&rdquo;#end",
  "#def / $text \\($text\\)#end",
  "#def - &mdash;#end",
  "#def list $items <ul>$items</ul>#end",
  "#def item $text <li>$text</li>#end",
  "#def break <br>#end",
  "#def section $title <h2>$title</h2>#end"].map (· ++ "\n"))

/-- Macros that write Markdown. -/
def markdownText : String := String.join ([
  "#! markdown flavoured formatting macros",
  "#def bold $text **$text**#end",
  "#def italic $text *$text*#end",
  "#def highlight $text ==$text==#end",
  "#def strike $text ~~$text~~#end",
  "#def line ---#end",
  "#def sub $text <sub>$text</sub>#end",
  "#def sup $text <sup>$text</sup>#end",
  "#def var $text `$text`#end",
  "#def ' $text ‘$text’#end",
  "#def \" $text “$text”#end",
  "#def / $text \\($text\\)#end",
  "#def - —#end",
  "#def list $items \\n$items\\n#end",
  "#def item $text - $text#end",
  "#def break \\s\\s\\n#end",
  "#def section $title \\#\\# $title#end"].map (· ++ "\n"))

/-- The modules with a text, in the order of their names. -/
def moduleTexts : List (String × String) := [("html", htmlText), ("markdown", markdownText)]

/-- A day and a time of day. -/
structure Moment where
  year : Nat
  month : Nat
  day : Nat
  hour : Nat
  minute : Nat
  second : Nat
  deriving DecidableEq, Repr, Inhabited

/-- The ready-made macros: the identity, and the day and time of a document. -/
def bodies (now : Moment) : List (String × String) :=
  [(".", "$value"),
    ("/date", s!"{now.year},{now.month},{now.day}"),
    ("/time", s!"{now.hour}:{now.minute}:{now.second}")]

end Markup.BuiltIn
