import Dj64.Malloc.OutOfMemory
import Dj64.Thunks.Balance
import Dj64.Exec.Proxy
import Dj64.Exec.Cmdline
import Dj64.Stdlib.SearchSorted
import Dj64.Stdio.TextReaders
import Dj64.Files.FileRuns
import Dj64.Stdlib.QsortSwap
import Dj64.Thunks.Registers
import Dj64.Dos.Int86
import Dj64.Thunks.Objects
import Dj64.Files.Child
import Dj64.Termios.Private
import Dj64.Shell.Words
import Dj64.Malloc.Memalign
import Dj64.Malloc.Preserved
import Dj64.Stdlib.Exit
import Dj64.Stdlib.EnvironFailures
import Dj64.Exec.ResponseFiles
import Dj64.Stdlib.EnvironFile
import Dj64.Exec.TailBuffers
import Dj64.Exec.FindOnPath
import Dj64.Exec.Elfexec
import Dj64.Thunks.Symbols
import Dj64.Shell.CopyRuns
import Dj64.Files.Dup
import Dj64.Files.ModeTable
import Dj64.Files.TextWrite
import Dj64.Stdio.Integers
import Dj64.Stdio.LineOutput
import Dj64.Stdio.Ownership
import Dj64.Stdio.Positional
import Dj64.Stdio.Pushback
import Dj64.Paths.Fnmatch
import Dj64.Paths.Glob
import Dj64.Paths.Names
import Dj64.Paths.Symlinks
import Dj64.Stdio.Grouping
import Dj64.Stdio.Snprintf
import Dj64.Files.Inodes
import Dj64.Time.Strftime
import Dj64.Stdlib.Strtol
