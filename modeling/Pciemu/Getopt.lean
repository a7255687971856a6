import Mathlib.Tactic

/-!
What the calls of `getopt` on one command line return, in order. A string is
the list of its bytes; words that are no options are passed over.
-/

namespace Pciemu.Getopt

/-- `bad` is `'?'`, for an option that is not known or has no argument. -/
inductive Item
  | flag (c : UInt8)
  | arg (c : UInt8) (optarg : List UInt8)
  | bad
  deriving DecidableEq

def takes (optstring : List UInt8) (c : UInt8) : Option Bool :=
  if c = 58 then none
  else
    match optstring.dropWhile (· ≠ c) with
    | [] => none
    | _ :: rest => some (rest.head? = some 58)

def letters (optstring : List UInt8) : List UInt8 → List Item × Option UInt8
  | [] => ([], none)
  | c :: cs =>
    match takes optstring c with
    | none => (.bad :: (letters optstring cs).1, (letters optstring cs).2)
    | some false => (.flag c :: (letters optstring cs).1, (letters optstring cs).2)
    | some true => if cs = [] then ([], some c) else ([.arg c cs], none)

/-- The words from here on, `pending` being an option whose argument is the first of them. -/
def scan (optstring : List UInt8) (pending : Option UInt8) : List (List UInt8) → List Item
  | [] => pending.toList.map fun _ => .bad
  | word :: argv =>
    match pending with
    | some c => .arg c word :: scan optstring none argv
    | none =>
      if word = [45, 45] then []
      else if word.head? = some 45 ∧ word ≠ [45] then
        (letters optstring word.tail).1 ++ scan optstring (letters optstring word.tail).2 argv
      else scan optstring none argv

def getopt (optstring : List UInt8) (argv : List (List UInt8)) : List Item := scan optstring none argv

structure Written where
  c : UInt8
  optarg : List UInt8
  attached : Bool
  optarg_ne : attached = true → optarg ≠ []

def Written.words (w : Written) : List (List UInt8) :=
  if w.attached then [45 :: w.c :: w.optarg] else [[45, w.c], w.optarg]

theorem getopt_next {optstring : List UInt8} {c : UInt8} (h : takes optstring c = some true) (hc : c ≠ 45)
    (optarg : List UInt8) (argv : List (List UInt8)) :
    getopt optstring ([45, c] :: optarg :: argv) = .arg c optarg :: getopt optstring argv := by
  have hl : letters optstring [c] = ([], some c) := by
    rw [letters, h]
    exact if_pos rfl
  rw [getopt, scan, if_neg (by simp [hc]), if_pos (by simp), List.tail_cons, hl, List.nil_append, scan]
  rfl

theorem getopt_attached {optstring : List UInt8} {c : UInt8} (h : takes optstring c = some true)
    {optarg : List UInt8} (hne : optarg ≠ []) (argv : List (List UInt8)) :
    getopt optstring ((45 :: c :: optarg) :: argv) = .arg c optarg :: getopt optstring argv := by
  have hl : letters optstring (c :: optarg) = ([.arg c optarg], none) := by
    rw [letters, h]
    exact if_neg hne
  rw [getopt, scan, if_neg (by simp [hne]), if_pos (by simp), List.tail_cons, hl, List.singleton_append]
  rfl

theorem getopt_written (optstring : List UInt8) (ws : List Written)
    (h : ∀ w ∈ ws, takes optstring w.c = some true ∧ w.c ≠ 45) (argv : List (List UInt8)) :
    getopt optstring (ws.flatMap Written.words ++ argv) =
      ws.map (fun w => .arg w.c w.optarg) ++ getopt optstring argv := by
  induction ws with
  | nil => rfl
  | cons w ws ih =>
    obtain ⟨ht, hc⟩ := h w List.mem_cons_self
    have hrest := ih fun v hv => h v (List.mem_cons_of_mem w hv)
    rw [List.flatMap_cons, List.map_cons, List.cons_append, ← hrest, Written.words]
    split_ifs with ha
    · exact getopt_attached ht (w.optarg_ne ha) _
    · exact getopt_next ht hc _ _

end Pciemu.Getopt
