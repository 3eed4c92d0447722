import DenseNumeric.NumArray.Basic

/-!
# The text of an array

Elements are separated by commas, rows stand in brackets on lines of their
own, and the element type follows:

    [[1, 2],
     [3, 4]] dtype=f64
-/

namespace DenseNumeric.NumArray

def rowText (a : NumArray) (row : Nat) : List Char :=
  let items := (List.range a.ncols).map fun col =>
    (a.storage.load (a.shape.offset row col)).text
  '[' :: List.intercalate [',', ' '] items ++ [']']

def text (a : NumArray) : List Char :=
  let body := match a.shape with
    | .vector _ => a.rowText 0
    | .matrix m _ =>
      '[' :: List.intercalate [',', '\n', ' '] ((List.range m).map a.rowText) ++ [']']
  body ++ (" dtype=" ++ a.dtype.shortName).toList

end DenseNumeric.NumArray
