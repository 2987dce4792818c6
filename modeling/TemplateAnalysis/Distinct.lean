namespace TemplateAnalysis

/-- The elements of a list that are the first ones with their key. -/
def distinctBy {α κ : Type} [BEq κ] (key : α → κ) : List α → List α
  | [] => []
  | first :: rest => first :: (distinctBy key rest).filter fun other => key other != key first

end TemplateAnalysis
