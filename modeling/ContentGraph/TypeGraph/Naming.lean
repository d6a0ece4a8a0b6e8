import ContentGraph.Digest.Sha256
import ContentGraph.Table

/-!
# Identities and names of types

A type merged from a set of schemas is identified by the digest of the sorted addresses and
named after the schemas. The name is readable and a legal name of a query type; the digits
of the identity at its end keep the names of different sets apart.
-/

namespace ContentGraph

/-- Texts in increasing order, each once. -/
def sortedSet (ss : List String) : List String := sortBy (fun a b => a ≤ b) ss.eraseDups

/-- The identity of a set of addresses. -/
def typeIdentity (addresses : List String) : String :=
  Sha256.hex ("\n".intercalate (sortedSet addresses))

/-- The letters and digits of a text, every row of them with a capital at its start. -/
def readable (start : Bool) : List Char → List Char
  | [] => []
  | c :: rest =>
    if c.isAlphanum then (if start then c.toUpper else c) :: readable false rest
    else readable true rest

/-- The first `n` characters of a text; a negative `n` counts from the end. -/
def takeSigned (n : Int) (cs : List Char) : List Char :=
  if 0 ≤ n then cs.take n.toNat else cs.take (cs.length - n.natAbs)

/-- The name of the type with an identity, from the schema names in the order of their
addresses. -/
def typeName (names : List String) (identity : String) (hashLength : Int) : String :=
  String.ofList ("Node".toList ++ names.flatMap (fun s => readable true s.toList)
    ++ '_' :: takeSigned hashLength identity.toList)

/-- The name of the type that schemas are merged into, from the addresses and names of the schemas;
of two schemas with one address the later counts. -/
def typeNameOf (schemas : List (String × String)) (identity : String) (hashLength : Int) : String :=
  typeName (Table.ofList schemas).sorted.values identity hashLength

end ContentGraph
