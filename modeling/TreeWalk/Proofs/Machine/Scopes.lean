import TreeWalk.Scope

/-!
What is found in a scope and in a heap after each operation on them.
-/

namespace TreeWalk

namespace Scope

theorem lookup_cons (name other : String) (value : Value) (rest : List (String × Value)) :
    ((name, value) :: rest).lookup other =
      if other = name then some value else rest.lookup other := by
  rw [List.lookup_cons]
  by_cases h : other = name
  · simp [h]
  · have hne : (other == name) = false := by simp [h]
    simp [hne, h]

theorem lookup_put (name other : String) (value : Value) (bindings : List (String × Value)) :
    (put name value bindings).lookup other =
      if other = name then some value else bindings.lookup other := by
  induction bindings with
  | nil => rw [put, lookup_cons]
  | cons first rest ih =>
    obtain ⟨key, old⟩ := first
    by_cases hkey : key = name
    · by_cases h : other = name <;> simp [put, lookup_cons, hkey, h]
    · by_cases h : other = key
      · simp [put, hkey, h]
      · simp [put, lookup_cons, hkey, h, ih]

end Scope

namespace Heap

variable (h : Heap) (s i : ScopeId)

@[simp] theorem size_define (name : String) (value : Value) :
    (h.define s name value).scopes.size = h.scopes.size := Array.size_modify

theorem getElem?_define (name : String) (value : Value) :
    (h.define s name value).scopes[i]? =
      if s = i then h.scopes[i]?.map (Scope.define name value) else h.scopes[i]? :=
  Array.getElem?_modify

@[simp] theorem size_addScope (bindings : List (String × Value)) :
    (h.addScope s bindings).scopes.size = h.scopes.size + 1 := Array.size_push _

theorem getElem?_addScope (bindings : List (String × Value)) :
    (h.addScope s bindings).scopes[i]? =
      if i = h.scopes.size then some ⟨bindings, some s⟩ else h.scopes[i]? :=
  Array.getElem?_push

end Heap

end TreeWalk
