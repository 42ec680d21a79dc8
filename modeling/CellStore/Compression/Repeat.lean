namespace CellStore.Compression

def repeatBack (offset : Nat) : (length : Nat) → ByteArray → ByteArray
  | 0, output => output
  | length + 1, output =>
    repeatBack offset length (output.push ((output[output.size - offset]?).getD 0))

end CellStore.Compression
