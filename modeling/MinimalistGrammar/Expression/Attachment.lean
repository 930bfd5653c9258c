import MinimalistGrammar.Expression.Basic

/-! Attaching an expression to a host as its newest child. No feature is checked here, and the order
of the two expressions does not matter. -/
namespace MinimalistGrammar
namespace Expression

def attach (host child : Expression) : Expression :=
  { host with children := child :: host.children }

/-- The outer features are of the two kinds and of one category. -/
def outersMatch (host child : FeatureKind) (a b : Expression) : Bool :=
  match a.outer?, b.outer? with
  | some f, some g => f.kind = host && g.kind = child && f.category = g.category
  | _, _ => false

/-- Attach the expression with the second kind of feature to the one with the first. -/
def attachBy? (host child : FeatureKind) (a b : Expression) : Option Expression :=
  if outersMatch host child a b then some (attach a b)
  else if outersMatch host child b a then some (attach b a)
  else none

/-- A licensee joins the host that selects it. -/
def insert? : Expression → Expression → Option Expression := attachBy? .licensor .licensee

/-- An adjunct joins the licensee that it modifies. -/
def insertAdjunct? : Expression → Expression → Option Expression := attachBy? .licensee .adjunct

end Expression
end MinimalistGrammar
