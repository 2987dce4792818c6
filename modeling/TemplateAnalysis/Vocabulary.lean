namespace TemplateAnalysis.Vocabulary

/-- The names that every template can use without declaring them. -/
def builtins : List String :=
  ["range", "dict", "lipsum", "cycler", "joiner", "namespace", "self", "super", "true", "false",
    "none", "True", "False"]

/-- Whether a name needs no declaration. The capitalised spelling of the empty value is accepted but
    not offered. -/
def isBuiltin (name : String) : Bool :=
  builtins.contains name || name == "None"

/-- The filters that every template can use, with what they do. -/
def filters : List (String × String) := [
  ("abs", "Return the absolute value of the argument."),
  ("attr", "Get an attribute of an object: `foo|attr(\"bar\")` works like `foo.bar`."),
  ("batch", "Batch items into lists of the given size, optionally filling the last one."),
  ("bool", "Convert the value into a boolean."),
  ("capitalize", "Uppercase the first character, lowercase the rest."),
  ("default",
    "Use the given default if the value is undefined (or falsy with `true` as second argument)."),
  ("dictsort", "Sort a dict and yield (key, value) pairs."),
  ("escape", "Replace `&`, `<`, `>`, `'` and `\"` with HTML-safe sequences."),
  ("first", "Return the first item of a sequence."),
  ("float", "Convert the value into a floating point number."),
  ("indent", "Indent every line of the string, the first line only on request."),
  ("int", "Convert the value into an integer."),
  ("items", "Return an iterator over the (key, value) pairs of a mapping."),
  ("join", "Concatenate the items of a sequence, optionally with a separator."),
  ("last", "Return the last item of a sequence."),
  ("length", "Return the number of items of a sequence or mapping."),
  ("list", "Convert the value into a list."),
  ("lower", "Convert the value to lowercase."),
  ("map", "Apply a filter or look up an attribute on every item of a sequence."),
  ("max", "Return the largest item of a sequence."),
  ("min", "Return the smallest item of a sequence."),
  ("pprint", "Pretty print a variable, useful for debugging."),
  ("rejectattr", "Drop items whose attribute passes the given test."),
  ("reject", "Drop items that pass the given test."),
  ("replace", "Replace every occurrence of a substring with another."),
  ("reverse", "Reverse a sequence or string."),
  ("round", "Round a number to the given precision."),
  ("safe", "Mark the value as safe: it will not be escaped."),
  ("selectattr", "Keep items whose attribute passes the given test."),
  ("select", "Keep items that pass the given test."),
  ("slice", "Slice an iterator into the given number of lists."),
  ("sort", "Sort an iterable, optionally by attribute."),
  ("title", "Titlecase every word of the string."),
  ("tojson", "Serialize the value to JSON, safe to embed in HTML."),
  ("trim", "Strip leading and trailing whitespace."),
  ("unique", "Return the unique items of a sequence."),
  ("upper", "Convert the value to uppercase."),
  ("urlencode", "Quote the value for use in a URL path or query.")]

/-- What a filter does. -/
def filterDoc? (name : String) : Option String :=
  (filters.find? (·.1 == name)).map (·.2)

/-- A piece of template code to begin with. Its text follows the opening mark of a tag, and an
    editor fills in the numbered fields. -/
structure Snippet where
  label : String
  description : String
  text : String
  deriving DecidableEq, Inhabited

/-- The snippets that can begin a statement. -/
def snippets : List Snippet := [
  { label := "for1", description := "Basic for loop"
    text := " for $\x7b1:item\x7d in $\x7b2:items\x7d %\x7d\n\x7b% endfor %\x7d" },
  { label := "for2", description := "For loop with key and value"
    text := " for ($\x7b1:key\x7d, $\x7b2:value\x7d) in $\x7b3:items\x7d %\x7d\n" ++
      "\x7b% endfor %\x7d" },
  { label := "with", description := "With block"
    text := " with $\x7b1:name\x7d = $\x7b2:value\x7d %\x7d\n\x7b% endwith %\x7d" },
  { label := "set1", description := "Set a variable in the current scope"
    text := " set $\x7b1:key\x7d = $\x7b2:value\x7d %\x7d" },
  { label := "set2", description := "Set a variable from a block"
    text := " set $\x7b1:data\x7d %\x7d\n\x7b% endset %\x7d" },
  { label := "include", description := "Include a template"
    text := " include \"$1\" %\x7d" },
  { label := "from", description := "Import names from another template"
    text := " from \"$1\" import $\x7b2:name\x7d %\x7d" },
  { label := "import", description := "Import a template as a module"
    text := " import \"$1\" as $\x7b2:module\x7d %\x7d" },
  { label := "extends", description := "Extend a parent template"
    text := " extends \"$1\" %\x7d" },
  { label := "if1", description := "If statement"
    text := " if $1 %\x7d\n\x7b% endif %\x7d" },
  { label := "if2", description := "If statement with elif"
    text := " if $1 %\x7d\n\x7b% elif $2 %\x7d\n\x7b% endif %\x7d" },
  { label := "macro", description := "Macro definition"
    text := " macro $\x7b1:name\x7d($\x7b2:args\x7d) %\x7d\n\x7b% endmacro %\x7d" },
  { label := "block", description := "Template block"
    text := " block $\x7b1:name\x7d %\x7d\n\x7b% endblock %\x7d" }]

end TemplateAnalysis.Vocabulary
